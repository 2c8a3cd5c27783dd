import Mathlib.Computability.Language
import MipsToolchain.Proofs.Scanner

open scoped Computability

namespace MipsToolchain.Scanner

/-- One part after the other, where the last may be of nothing. -/
def optionalLast : List (Language Char) → Language Char
  | [] => 1
  | [l] => l + 1
  | l :: ls => l * optionalLast ls

mutual

/-- The texts that a scanner stands for, given those that a string stands for. Where all of several
scanners have to match, one of them does so the longest. -/
def language (word : String → Language Char) : Scanner → Language Char
  | unit cs => {cs}
  | caseless s => word s
  | within lo hi => {w | ∃ c, w = [c] ∧ lo ≤ c ∧ c ≤ hi}
  | all xs => (languages word xs).sum
  | any xs => (languages word xs).sum
  | many x => language word x * (language word x)∗
  | sequence xs => (languages word xs).prod
  | sequenceOpt xs => optionalLast (languages word xs)

def languages (word : String → Language Char) : List Scanner → List (Language Char)
  | [] => []
  | x :: xs => language word x :: languages word xs

end

mutual

/-- The strings in a scanner that match without regard to letter case. -/
def strings : Scanner → List String
  | unit _ | within _ _ => []
  | caseless s => [s]
  | many x => strings x
  | all xs | any xs | sequence xs | sequenceOpt xs => stringsOf xs

def stringsOf : List Scanner → List String
  | [] => []
  | x :: xs => strings x ++ stringsOf xs

end

/-- The texts that equal a string up to the case of ASCII letters. -/
def spelled (s : String) : Language Char :=
  {w | w.map Char.toLower = s.toList.map Char.toLower}

/-- The texts that start like a string and have as many characters as it has bytes. -/
def measured (s : String) : Language Char :=
  {w | w.length = s.utf8ByteSize ∧ s.toList.map Char.toLower <+: w.map Char.toLower}

def IsAscii (s : String) : Prop := ∀ c ∈ s.toList, c.toNat < 128

instance (s : String) : Decidable (IsAscii s) :=
  List.decidableBAll (fun c : Char => c.toNat < 128) s.toList

variable {x : Scanner} {xs : List Scanner} {text : List Char} {f : List Char → Nat} {n : Nat}
  {word : String → Language Char}

/-- Whether a scanner cuts off the texts of a language only. -/
def Recognises (f : List Char → Nat) (l : Language Char) : Prop :=
  ∀ text, 0 < f text → text.take (f text) ∈ l

section Parts

theorem recognises_caseless (s : String) : Recognises (caseless s).run (measured s) := by
  intro text hpos
  rw [run, matchCaseless] at hpos ⊢
  split at hpos
  · exact absurd hpos (Nat.lt_irrefl 0)
  · next hlen =>
    split at hpos
    · next hstart =>
      rw [if_neg hlen, if_pos hstart]
      refine ⟨List.length_take_of_le (by omega), ?_⟩
      rw [List.map_take]
      refine List.prefix_take_iff.mpr ⟨List.isPrefixOf_iff_prefix.mp hstart, ?_⟩
      rw [List.length_map]
      exact length_le_utf8ByteSize s
    · exact absurd hpos (Nat.lt_irrefl 0)

theorem recognises_within (lo hi : Char) :
    Recognises (within lo hi).run {w | ∃ c, w = [c] ∧ lo ≤ c ∧ c ≤ hi} := by
  intro text hpos
  rw [run] at hpos ⊢
  cases text with
  | nil => exact absurd hpos (Nat.lt_irrefl 0)
  | cons c r =>
    rw [matchWithin] at hpos ⊢
    split at hpos
    · next hc =>
      rw [if_pos hc]
      exact ⟨c, rfl, hc⟩
    · exact absurd hpos (Nat.lt_irrefl 0)

theorem recognises_getD {g : List Char → Option Nat} {l : Language Char}
    (hg : ∀ text, ∀ n ∈ g text, 0 < n → text.take n ∈ l) :
    Recognises (fun r => (g r).getD 0) l := by
  intro text hpos
  dsimp only at hpos ⊢
  cases hn : g text with
  | none =>
    rw [hn] at hpos
    exact absurd hpos (Nat.lt_irrefl 0)
  | some n =>
    rw [hn] at hpos
    exact hg text n hn hpos

theorem recognises_many {l : Language Char} (hf : Recognises f l) :
    Recognises (matchMany f) (l * l∗) := by
  intro text
  induction h : text.length using Nat.strongRecOn generalizing text with
  | _ k ih =>
    intro hpos
    rw [matchMany_eq] at hpos ⊢
    split at hpos
    · exact absurd hpos (Nat.lt_irrefl 0)
    · next hmatch =>
      obtain ⟨hne, hf₀⟩ := not_or.mp hmatch
      have hlen := List.length_pos_of_ne_nil hne
      have hrest := ih (text.length - f text) (by omega) (text.drop (f text)) List.length_drop
      rw [if_neg hmatch, List.take_add]
      refine Language.append_mem_mul (hf text (Nat.pos_of_ne_zero hf₀)) ?_
      rcases Nat.eq_zero_or_pos (matchMany f (text.drop (f text))) with hzero | hmore
      · rw [hzero]
        exact Language.nil_mem_kstar l
      · rw [← Language.one_add_self_mul_kstar_eq_kstar]
        exact .inr (hrest hmore)

variable (h : ∀ x ∈ xs, Recognises x.run (x.language word))

include h

theorem take_mem_sum_of_all (hn : n ∈ runAll xs text) (hpos : 0 < n) :
    text.take n ∈ (languages word xs).sum := by
  induction xs generalizing n with
  | nil =>
    cases hn
    exact absurd hpos (Nat.lt_irrefl 0)
  | cons x xs ih =>
    obtain ⟨hx, hxs⟩ := List.forall_mem_cons.mp h
    rw [languages, List.sum_cons, Language.mem_add]
    rw [runAll_cons] at hn
    split at hn
    · cases hn
    · next hne =>
      obtain ⟨m, hm, rfl⟩ := Option.map_eq_some_iff.mp hn
      rcases Nat.le_total m (x.run text) with hle | hle
      · rw [Nat.max_eq_left hle]
        exact .inl (hx text (Nat.pos_of_ne_zero hne))
      · rw [Nat.max_eq_right hle]
        exact .inr (ih hxs hm (by omega))

theorem recognises_any : Recognises (runAny xs) (languages word xs).sum := by
  induction xs with
  | nil =>
    intro text hpos
    exact absurd hpos (Nat.lt_irrefl 0)
  | cons x xs ih =>
    obtain ⟨hx, hxs⟩ := List.forall_mem_cons.mp h
    intro text hpos
    rw [languages, List.sum_cons, Language.mem_add]
    rw [runAny_cons] at hpos ⊢
    split at hpos
    · next hzero =>
      rw [if_pos hzero]
      exact .inr (ih hxs text hpos)
    · next hne =>
      rw [if_neg hne]
      exact .inl (hx text hpos)

theorem take_mem_prod (hn : n ∈ runSequence xs text) :
    text.take n ∈ (languages word xs).prod := by
  induction xs generalizing text n with
  | nil =>
    cases hn
    exact Language.mem_one _ |>.mpr rfl
  | cons x xs ih =>
    obtain ⟨hx, hxs⟩ := List.forall_mem_cons.mp h
    rw [runSequence_cons] at hn
    split at hn
    · cases hn
    · next hne =>
      obtain ⟨m, hm, rfl⟩ := Option.map_eq_some_iff.mp hn
      rw [languages, List.prod_cons, List.take_add]
      exact Language.append_mem_mul (hx text (Nat.pos_of_ne_zero hne)) (ih hxs hm)

theorem take_mem_optionalLast (hn : n ∈ runSequenceOpt xs text) :
    text.take n ∈ optionalLast (languages word xs) := by
  induction xs generalizing text n with
  | nil =>
    cases hn
    exact Language.mem_one _ |>.mpr rfl
  | cons x xs ih =>
    obtain ⟨hx, hxs⟩ := List.forall_mem_cons.mp h
    cases xs with
    | nil =>
      cases hn
      rcases Nat.eq_zero_or_pos (x.run text) with hzero | hpos
      · rw [hzero]
        exact .inr rfl
      · exact .inl (hx text hpos)
    | cons y ys =>
      rw [runSequenceOpt_cons (List.cons_ne_nil y ys)] at hn
      split at hn
      · cases hn
      · next hne =>
        obtain ⟨m, hm, rfl⟩ := Option.map_eq_some_iff.mp hn
        rw [List.take_add]
        exact Language.append_mem_mul (hx text (Nat.pos_of_ne_zero hne)) (ih hxs hm)

end Parts

/-- What a scanner cuts off is in its language, where strings are measured in bytes. -/
theorem recognises_run (x : Scanner) : Recognises x.run (x.language measured) := by
  induction x using induction_parts with
  | unit cs =>
    intro text hpos
    rw [run] at hpos ⊢
    split at hpos
    · next hstart =>
      rw [if_pos hstart]
      exact (List.prefix_iff_eq_take.mp (List.isPrefixOf_iff_prefix.mp hstart)).symm
    · exact absurd hpos (Nat.lt_irrefl 0)
  | caseless s => exact recognises_caseless s
  | within lo hi => exact recognises_within lo hi
  | all xs ih =>
    intro text
    rw [run]
    exact recognises_getD (fun _ _ hn hpos => take_mem_sum_of_all ih hn hpos) text
  | any xs ih =>
    intro text
    rw [run]
    exact recognises_any ih text
  | many x ih =>
    intro text
    rw [run]
    exact recognises_many ih text
  | sequence xs ih =>
    intro text
    rw [run]
    exact recognises_getD (fun _ _ hn _ => take_mem_prod ih hn) text
  | sequenceOpt xs ih =>
    intro text
    rw [run]
    exact recognises_getD (fun _ _ hn _ => take_mem_optionalLast ih hn) text

section Strings

theorem utf8Size_eq_one_iff (c : Char) : c.utf8Size = 1 ↔ c.toNat < 128 := by
  rw [Char.utf8Size_eq_one_iff, UInt32.le_iff_toNat_le]
  exact Nat.lt_succ_iff.symm

theorem utf8ByteSize_eq_length_iff (s : String) :
    s.utf8ByteSize = s.toList.length ↔ IsAscii s := by
  have hofList (cs : List Char) :
      (String.ofList cs).utf8ByteSize = cs.length ↔ ∀ c ∈ cs, c.toNat < 128 := by
    induction cs with
    | nil => simp
    | cons c cs ih =>
      have hc := c.utf8Size_pos
      have hcs := length_le_utf8ByteSize_ofList cs
      rw [List.forall_mem_cons, ← ih, ← utf8Size_eq_one_iff, utf8ByteSize_cons, List.length_cons]
      omega
  have hs := hofList s.toList
  rwa [String.ofList_toList] at hs

/-- Strings mean what they are documented to mean if they are ASCII. -/
theorem measured_eq_spelled {s : String} (hs : IsAscii s) : measured s = spelled s := by
  have hsize := (utf8ByteSize_eq_length_iff s).mpr hs
  ext w
  change w.length = s.utf8ByteSize ∧ _ <+: _ ↔ _ = _
  rw [hsize]
  constructor
  · rintro ⟨hlen, hstart⟩
    exact (hstart.eq_of_length (by simp [hlen])).symm
  · intro heq
    have hlen := congrArg List.length heq
    rw [List.length_map, List.length_map] at hlen
    exact ⟨hlen, heq ▸ List.prefix_rfl⟩

theorem language_congr {word' : String → Language Char} (x : Scanner)
    (h : ∀ s ∈ x.strings, word s = word' s) : x.language word = x.language word' := by
  have hparts {xs : List Scanner}
      (ih : ∀ x ∈ xs, (∀ s ∈ x.strings, word s = word' s) → x.language word = x.language word')
      (h : ∀ s ∈ stringsOf xs, word s = word' s) : languages word xs = languages word' xs := by
    induction xs with
    | nil => rfl
    | cons x xs ihs =>
      obtain ⟨ihx, ihxs⟩ := List.forall_mem_cons.mp ih
      rw [stringsOf, List.forall_mem_append] at h
      rw [languages, languages, ihx h.1, ihs ihxs h.2]
  induction x using induction_parts with
  | unit | within => rfl
  | caseless s => exact h s (List.mem_singleton_self s)
  | all xs ih | any xs ih | sequence xs ih | sequenceOpt xs ih =>
    rw [language, language, hparts ih h]
  | many x ih => rw [language, language, ih h]

/-- A scanner for a string beyond ASCII also takes characters behind it, as many as the string has
bytes more than characters. -/
theorem recognises_spelled_iff (s : String) :
    Recognises (caseless s).run (spelled s) ↔ IsAscii s := by
  refine ⟨fun h => ?_, fun hs => measured_eq_spelled hs ▸ recognises_caseless s⟩
  by_contra hs
  have hlt : s.toList.length < s.utf8ByteSize :=
    Nat.lt_of_le_of_ne (length_le_utf8ByteSize s) fun heq =>
      hs ((utf8ByteSize_eq_length_iff s).mp heq.symm)
  let text := s.toList ++ List.replicate (s.utf8ByteSize - s.toList.length) ' '
  have hlen : text.length = s.utf8ByteSize := by
    rw [List.length_append, List.length_replicate]
    omega
  have hstart : (s.toList.map Char.toLower).isPrefixOf (text.map Char.toLower) := by
    rw [List.map_append, List.isPrefixOf_iff_prefix]
    exact List.prefix_append _ _
  have hrun : (caseless s).run text = s.utf8ByteSize := by
    rw [run, matchCaseless, hlen, if_neg (Nat.lt_irrefl _), if_pos hstart]
  have hmem := h text (by omega)
  rw [hrun, ← hlen, List.take_length] at hmem
  have hsame := congrArg List.length hmem
  rw [List.length_map, List.length_map] at hsame
  omega

end Strings

/-- A scanner never looks at a place where no character is, comes to its end, and takes no more than
there is. What it takes is in its language, if strings in it are measured in bytes. So it is in the
language that the strings are meant to have if these are ASCII, as a string on its own has to be. -/
theorem scanners_recognise (x : Scanner) (s : String) :
    (∀ text, x.scan text = .ok (x.run text) ∧ x.run text ≤ text.length) ∧
      Recognises x.run (x.language measured) ∧
      ((∀ s ∈ x.strings, IsAscii s) → Recognises x.run (x.language spelled)) ∧
      (Recognises (caseless s).run ((caseless s).language spelled) ↔ IsAscii s) := by
  refine ⟨fun text => ⟨x.scan_eq_run text, x.run_le_length text⟩, x.recognises_run, fun hs => ?_,
    recognises_spelled_iff s⟩
  rw [← x.language_congr fun s hmem => measured_eq_spelled (hs s hmem)]
  exact x.recognises_run

theorem scanners_recognise_accented :
    (caseless "é").scan ['É', 'x'] = .ok 0 ∧ (caseless "é").scan ['é', 'x'] = .ok 2 ∧
      ¬ Recognises (caseless "é").run ((caseless "é").language spelled) := by
  obtain ⟨hscan, -, -, hascii⟩ := scanners_recognise (caseless "é") "é"
  refine ⟨(hscan _).1.trans (by decide), (hscan _).1.trans (by decide), fun h => ?_⟩
  exact absurd (hascii.mp h) (by decide)

end MipsToolchain.Scanner
