import Mathlib.Logic.ExistsUnique
import MipsToolchain.Proofs.Token.Positions
import MipsToolchain.Proofs.Token.Spelling

namespace MipsToolchain

namespace Lexeme

variable {text rest r : List Char} {k : Nat} {l : Lexeme} {ls : List Lexeme}

/-- What is known of a piece of a line when something follows it. It lies within one line, and it
ends where it has to. -/
structure Whole (l : Lexeme) (rest : List Char) : Prop where
  nonempty : l.text ≠ []
  oneLine : '\n' ∉ l.text
  word : (∀ c ∈ l.text, isWordChar c) → Stops rest
  whitespace : l.shape = .whitespace →
    (∀ c ∈ l.text, isBlank c) ∧ ∀ c, rest.head? = some c → isBlank c = false
  comment : l.shape = .comment → ∀ c, rest.head? = some c → c = '\n'

theorem head_dropWhile {p : Char → Bool} {c : Char} (h : (r.dropWhile p).head? = some c) :
    p c = false := by
  have hhead := List.head?_dropWhile_not p r
  rw [h] at hhead
  exact hhead

theorem whole_span {p : Char → Bool} {shape : LexemeShape} {c : Char} (closed : Bool)
    (hc : c ≠ '\n') (hnewline : p '\n' = false)
    (hword : isWordChar c → p = isWordChar)
    (hblank : shape = .whitespace → p = isBlank ∧ isBlank c)
    (hcomment : shape = .comment → p = (· ≠ '\n')) :
    Whole ⟨shape, c :: r.take (r.takeWhile p).length, k, closed⟩
      (r.drop (r.takeWhile p).length) := by
  rw [← List.prefix_iff_eq_take.mp (List.takeWhile_prefix p), LineScan.drop_length_takeWhile]
  have htaken : ∀ d ∈ r.takeWhile p, p d := List.all_eq_true.mp List.all_takeWhile
  constructor
  · exact List.cons_ne_nil _ _
  · intro hmem
    rcases List.mem_cons.mp hmem with rfl | hmem
    · exact hc rfl
    · rw [htaken _ hmem] at hnewline
      cases hnewline
  · intro hchars d hd
    have hp := head_dropWhile hd
    rwa [hword (hchars c (List.mem_cons_self ..))] at hp
  · intro hshape
    obtain ⟨rfl, hc⟩ := hblank hshape
    exact ⟨List.forall_mem_cons.mpr ⟨hc, htaken⟩, fun d hd => head_dropWhile hd⟩
  · intro hshape d hd
    have hp := head_dropWhile hd
    rw [hcomment hshape] at hp
    simpa using hp

theorem whole_other {shape : LexemeShape} {c : Char} {w : List Char} (closed : Bool)
    (hc : c ≠ '\n') (hw : '\n' ∉ w) (hword : isWordChar c = false)
    (hshape : shape ≠ .whitespace ∧ shape ≠ .comment) :
    Whole ⟨shape, c :: w, k, closed⟩ rest where
  nonempty := List.cons_ne_nil _ _
  oneLine := by
    rw [List.mem_cons, not_or]
    exact ⟨hc.symm, hw⟩
  word hchars := by
    rw [hchars c (List.mem_cons_self ..)] at hword
    cases hword
  whitespace h := absurd h hshape.1
  comment h := absurd h hshape.2

theorem newline_notMem_literal (quote : Char) (r : List Char) (hquote : quote ≠ '\n') :
    '\n' ∉ r.take (literalExtent quote r).1 := by
  fun_induction literalExtent quote r with
  | case1 => simp
  | case2 r => simp
  | case3 e r he ih => simp [ih, Ne.symm he]
  | case4 r hr => simpa using hquote.symm
  | case5 r hr hne => simp
  | case6 c r hr hne hnewline ih => simp [ih, Ne.symm hnewline]

theorem whole_extent {c : Char} (hc : c ≠ '\n') :
    Whole ⟨(extent c r).1, c :: r.take (extent c r).2.1, k, (extent c r).2.2⟩
      (r.drop (extent c r).2.1) := by
  unfold extent
  split
  · next hblank =>
    refine whole_span _ hc (by decide) (fun hword => ?_) (fun _ => ⟨rfl, hblank⟩) nofun
    rw [(not_isBlank hword).1] at hblank
    cases hblank
  split
  · exact whole_span _ hc (by decide) (fun _ => rfl) nofun nofun
  next hword =>
  have hother := Bool.eq_false_iff.mpr hword
  split
  · exact whole_span _ hc (by decide) (fun h => absurd h hword) nofun fun _ => rfl
  split
  · exact whole_other _ hc (newline_notMem_literal _ r (by decide)) hother ⟨nofun, nofun⟩
  split
  · exact whole_other _ hc (newline_notMem_literal _ r (by decide)) hother ⟨nofun, nofun⟩
  split
  · next hpair =>
    obtain ⟨r, rfl⟩ := List.head?_eq_some_iff.mp hpair.2
    exact whole_other _ hc (by simpa using hc.symm) hother (by decide)
  · exact whole_other _ hc (by simp) hother (by decide)

theorem eq_replicate_of_scanFrom (h : scanFrom k text = []) :
    ∃ gap, text = List.replicate gap '\n' := by
  fun_induction scanFrom k text with
  | case1 => exact ⟨0, rfl⟩
  | case2 k r ih =>
    obtain ⟨gap, rfl⟩ := ih h
    exact ⟨gap + 1, rfl⟩
  | case3 k c r hc shape n closed he ih => cases h

/-- The first piece of a text comes behind line ends only, and the other pieces are those of what
follows it. -/
theorem eq_append_of_scanFrom (h : scanFrom k text = l :: ls) :
    ∃ gap rest, text = List.replicate gap '\n' ++ (l.text ++ rest) ∧ l.column = k + gap ∧
      l.Whole rest ∧ ls = scanFrom (k + gap + l.text.length) rest := by
  fun_induction scanFrom k text with
  | case1 => cases h
  | case2 k r ih =>
    obtain ⟨gap, rest, rfl, hcolumn, hwhole, hls⟩ := ih h
    have hgap : k + 1 + gap = k + (gap + 1) := by omega
    rw [hgap] at hcolumn hls
    exact ⟨gap + 1, rest, rfl, hcolumn, hwhole, hls⟩
  | case3 k c r hc shape n closed he ih =>
    obtain ⟨rfl, rfl⟩ := List.cons.inj h
    have hwhole := whole_extent (k := k) (r := r) hc
    have hn := LineScan.extent_le c r
    rw [he] at hwhole
    replace hn : n ≤ r.length := by rwa [he] at hn
    refine ⟨0, r.drop n, ?_, rfl, hwhole, ?_⟩
    · simp
    · have hlen : k + 1 + n = k + 0 + (c :: r.take n).length := by
        rw [List.length_cons, List.length_take_of_le hn]
        omega
      rw [hlen]

theorem of_kind {loc : Source.Location} {started colon : Bool} {kind : TokenKind}
    (h : (l.kind loc started colon).value = kind) :
    (kind = .whitespace → l.shape = .whitespace) ∧ (kind = .comment → l.shape = .comment) ∧
      (kind = .label → colon = true) := by
  subst h
  unfold Lexeme.kind
  split
  case h_1 hshape => exact ⟨fun _ => hshape, nofun, nofun⟩
  case h_2 hshape => exact ⟨nofun, fun _ => hshape, nofun⟩
  case h_3 => exact ⟨nofun, nofun, nofun⟩
  case h_4 => exact ⟨nofun, nofun, nofun⟩
  case h_5 =>
    unfold punctuationKind
    repeat' split
    all_goals exact ⟨nofun, nofun, nofun⟩
  case h_6 =>
    unfold wordKind
    dsimp only
    repeat' split
    case isFalse.isFalse.isFalse.isFalse.isTrue hcolon =>
      exact ⟨nofun, nofun, fun _ => hcolon⟩
    all_goals exact ⟨nofun, nofun, nofun⟩

end Lexeme

structure ColonFrom (cs : List Char) (k p : Nat) : Prop where
  behind : k ≤ p
  colon : cs[p]? = some ':'
  gap : ∀ q, k ≤ q → q < p → cs[q]? = some '\n'

namespace ColonFrom

variable {cs : List Char} {k p q : Nat}

theorem here (h : cs[k]? = some ':') : ColonFrom cs k k :=
  ⟨Nat.le_refl k, h, fun _ hle hlt => absurd hlt (Nat.not_lt.mpr hle)⟩

theorem newline (h : ColonFrom cs (k + 1) p) (hk : cs[k]? = some '\n') : ColonFrom cs k p where
  behind := Nat.le_of_succ_le h.behind
  colon := h.colon
  gap q hle hlt := by
    rcases Nat.eq_or_lt_of_le hle with rfl | hlt'
    · exact hk
    · exact h.gap q hlt' hlt

theorem unique (h : ColonFrom cs k p) (h' : ColonFrom cs k q) : p = q := by
  have hle {p q : Nat} (h : ColonFrom cs k p) (h' : ColonFrom cs k q) : p ≤ q := by
    refine Nat.not_lt.mp fun hlt => ?_
    have hq := h.gap q h'.behind hlt
    rw [h'.colon] at hq
    cases hq
  exact Nat.le_antisymm (hle h h') (hle h' h)

end ColonFrom

namespace Token

variable {t u : Token} {rest : List Char} {p q : Nat}

def start (t : Token) : Nat := t.location.column.toNat

def stop (t : Token) : Nat := t.start + t.text.toList.length

def Covers (t : Token) (p : Nat) : Prop := t.start ≤ p ∧ p < t.stop

instance (t : Token) (p : Nat) : Decidable (t.Covers p) :=
  inferInstanceAs (Decidable (_ ∧ _))

theorem start_eq {file : String} {number : Int} {k : Nat} (h : t.location = ⟨file, number, k⟩) :
    t.start = k := by
  rw [start, h]
  rfl

theorem stop_eq {file : String} {number : Int} {k : Nat} (h : t.location = ⟨file, number, k⟩) :
    t.stop = k + t.text.toList.length := by
  rw [stop, start_eq h]

def IsWord (t : Token) : Prop := ∀ c ∈ t.text.toList, Lexeme.isWordChar c

structure Whole (t : Token) (rest : List Char) : Prop where
  nonempty : t.text.toList ≠ []
  oneLine : '\n' ∉ t.text.toList
  word : t.IsWord → Lexeme.Stops rest
  whitespace : t.kind = .whitespace →
    (∀ c ∈ t.text.toList, Lexeme.isBlank c) ∧
      ∀ c, rest.head? = some c → Lexeme.isBlank c = false
  comment : t.kind = .comment → ∀ c, rest.head? = some c → c = '\n'

end Token

theorem Lexeme.Whole.token {l : Lexeme} {rest : List Char} {loc loc' : Source.Location}
    {started colon : Bool} (h : l.Whole rest) :
    Token.Whole ⟨l.string, (l.kind loc started colon).value, loc'⟩ rest := by
  have htext : l.string.toList = l.text := String.toList_ofList
  obtain ⟨hwhitespace, hcomment, -⟩ := l.of_kind (rfl : (l.kind loc started colon).value = _)
  constructor <;> simp only [Token.IsWord, htext]
  · exact h.nonempty
  · exact h.oneLine
  · exact h.word
  · exact fun hk => h.whitespace (hwhitespace hk)
  · exact fun hk => h.comment (hcomment hk)

/-- How tokens lie in a text that starts at a column. Beside line ends, all that is between them is
a colon behind each label, and one more in front of them if it is still owed. -/
inductive Tiles (file : String) (number : Int) : Bool → Nat → List Char → List Token → Prop
  | nil {k : Nat} : Tiles file number false k [] []
  | newline {owed : Bool} {k : Nat} {r : List Char} {ts : List Token} :
      Tiles file number owed (k + 1) r ts → Tiles file number owed k ('\n' :: r) ts
  | colon {k : Nat} {r : List Char} {ts : List Token} :
      Tiles file number false (k + 1) r ts → Tiles file number true k (':' :: r) ts
  | token {t : Token} {k : Nat} {r : List Char} {ts : List Token} :
      t.location = ⟨file, number, k⟩ → t.Whole r →
      Tiles file number (t.kind = .label) (k + t.text.toList.length) r ts →
      Tiles file number false k (t.text.toList ++ r) (t :: ts)

structure Token.Lies (t : Token) (file : String) (number : Int) (cs : List Char) : Prop where
  location : t.location = ⟨file, number, t.start⟩
  text : cs.drop t.start = t.text.toList ++ cs.drop t.stop
  whole : t.Whole (cs.drop t.stop)

namespace Token.Lies

variable {t : Token} {file : String} {number : Int} {cs : List Char} {p : Nat} {c : Char}

theorem start_lt (h : t.Lies file number cs) : t.start < t.stop :=
  Nat.lt_add_of_pos_right (List.length_pos_iff.mpr h.whole.nonempty)

theorem extract (h : t.Lies file number cs) : cs.extract t.start t.stop = t.text.toList := by
  rw [List.extract_eq_take_drop, h.text, Token.stop, Nat.add_sub_cancel_left, List.take_left]

theorem mem_of_covers (h : t.Lies file number cs) (hcov : t.Covers p) (hc : cs[p]? = some c) :
    c ∈ t.text.toList := by
  obtain ⟨hstart, hstop⟩ := hcov
  rw [Token.stop] at hstop
  have hget : (cs.drop t.start)[p - t.start]? = some c := by
    rwa [List.getElem?_drop, Nat.add_sub_cancel' hstart]
  rw [h.text, List.getElem?_append_left (by omega)] at hget
  exact List.mem_of_getElem? hget

theorem head (h : t.Lies file number cs) :
    ∃ c, (cs.drop t.start).head? = some c ∧ c ∈ t.text.toList := by
  obtain ⟨c, w, hw⟩ := List.exists_cons_of_ne_nil h.whole.nonempty
  rw [h.text, hw]
  exact ⟨c, rfl, List.mem_cons_self ..⟩

end Token.Lies

namespace Tiles

variable {file : String} {number : Int} {owed started : Bool} {k p : Nat} {cs text : List Char}
  {ts : List Token} {t u : Token} {ls : List Lexeme}

theorem newlines {gap : Nat} (h : Tiles file number owed (k + gap) text ts) :
    Tiles file number owed k (List.replicate gap '\n' ++ text) ts := by
  induction gap generalizing k with
  | zero => exact h
  | succ gap ih =>
    refine .newline (ih ?_)
    rwa [Nat.add_assoc, Nat.add_comm 1]

/-- The tokens of a text tile it. A label is one only if the piece behind it is a colon. -/
theorem of_classify (h : Lexeme.scanFrom k text = ls) :
    Tiles file number false k text (Lexeme.classify file number started ls).value := by
  fun_induction Lexeme.classify file number started ls generalizing k text
  case case1 =>
    obtain ⟨gap, rfl⟩ := Lexeme.eq_replicate_of_scanFrom h
    have hend : Tiles file number false (k + gap) [] [] := .nil
    simpa using hend.newlines
  case case2 started l rest loc colon ih =>
    obtain ⟨gap, r, rfl, hcolumn, hwhole, hrest⟩ := Lexeme.eq_append_of_scanFrom h
    simp only [Reported.value_bind, Reported.value_pure]
    have htext : l.string.toList = l.text := String.toList_ofList
    refine .newlines ?_
    rw [← htext]
    let t : Token := ⟨l.string, (l.kind loc started colon).value, loc⟩
    refine .token (t := t) (by simp [t, loc, hcolumn]) hwhole.token ?_
    rw [htext]
    replace ih := @ih (l.kind loc started colon).value
    -- A label takes the piece behind it along, which is its colon.
    by_cases hlabel : (l.kind loc started colon).value = .label
    · rw [dif_pos hlabel] at ih
      obtain ⟨-, -, hcolon⟩ := l.of_kind hlabel
      obtain ⟨l', rest, rfl, hl'⟩ : ∃ l' rest', rest = l' :: rest' ∧ l'.text = [':'] := by
        cases rest with
        | nil => simp [colon] at hcolon
        | cons l' rest => exact ⟨l', rest, rfl, by simpa [colon] using hcolon⟩
      obtain ⟨gap, r, rfl, -, -, hrest⟩ := Lexeme.eq_append_of_scanFrom hrest.symm
      rw [hl'] at hrest ⊢
      rw [decide_eq_true hlabel, if_pos hlabel]
      exact .newlines (.colon (ih hrest.symm))
    · rw [dif_neg hlabel] at ih
      rw [decide_eq_false hlabel, if_neg hlabel]
      exact ih hrest.symm

theorem drop_token {r : List Char} (hcs : cs.drop k = t.text.toList ++ r) :
    cs.drop (k + t.text.toList.length) = r := by
  rw [← List.drop_drop, hcs, List.drop_left]

theorem start_le (h : Tiles file number owed k text ts) : ∀ t ∈ ts, k ≤ t.start := by
  induction h with
  | nil => nofun
  | newline _ ih => exact fun t ht => Nat.le_of_succ_le (ih t ht)
  | colon _ ih => exact fun t ht => Nat.le_of_succ_le (ih t ht)
  | token hloc _ _ ih =>
    refine List.forall_mem_cons.mpr ⟨Nat.le_of_eq (Token.start_eq hloc).symm, fun t ht => ?_⟩
    exact Nat.le_trans (Nat.le_add_right _ _) (ih t ht)

theorem ordered (h : Tiles file number owed k text ts) :
    ts.Pairwise fun t u => t.stop ≤ u.start := by
  induction h with
  | nil => exact .nil
  | newline _ ih => exact ih
  | colon _ ih => exact ih
  | token hloc _ hrest ih =>
    refine .cons (fun u hu => ?_) ih
    rw [Token.stop_eq hloc]
    exact hrest.start_le u hu

theorem lies (h : Tiles file number owed k text ts) (hcs : cs.drop k = text) :
    ∀ t ∈ ts, t.Lies file number cs := by
  induction h with
  | nil => nofun
  | newline _ ih => exact ih (drop_succ_of_drop hcs)
  | colon _ ih => exact ih (drop_succ_of_drop hcs)
  | @token t k r ts hloc hwhole hrest ih =>
    have hdrop := drop_token hcs
    refine List.forall_mem_cons.mpr ⟨⟨?_, ?_, ?_⟩, ih hdrop⟩
    · rw [Token.start_eq hloc, hloc]
    · rw [Token.start_eq hloc, Token.stop_eq hloc, hdrop, hcs]
    · rw [Token.stop_eq hloc, hdrop]
      exact hwhole

theorem owed_colon (h : Tiles file number owed k text ts) (howed : owed = true)
    (hcs : cs.drop k = text) : ∃ p, ColonFrom cs k p ∧ ∀ t ∈ ts, p < t.start := by
  induction h with
  | nil => cases howed
  | token => cases howed
  | newline _ ih =>
    obtain ⟨p, hp, hbefore⟩ := ih howed (drop_succ_of_drop hcs)
    exact ⟨p, hp.newline (getElem?_of_drop hcs), hbefore⟩
  | colon hrest _ =>
    exact ⟨_, .here (getElem?_of_drop hcs), fun t ht => hrest.start_le t ht⟩

theorem label_colon (h : Tiles file number owed k text ts) (hcs : cs.drop k = text) (ht : t ∈ ts)
    (hlabel : t.kind = .label) : ∃ p, ColonFrom cs t.stop p ∧ ∀ u ∈ ts, ¬ u.Covers p := by
  induction h with
  | nil => cases ht
  | newline _ ih => exact ih (drop_succ_of_drop hcs) ht
  | colon _ ih => exact ih (drop_succ_of_drop hcs) ht
  | @token t' k r ts hloc hwhole hrest ih =>
    have hdrop := drop_token hcs
    have hstop := Token.stop_eq hloc
    rcases List.mem_cons.mp ht with rfl | ht
    · obtain ⟨p, hp, hbefore⟩ := hrest.owed_colon (decide_eq_true hlabel) hdrop
      rw [← hstop] at hp
      refine ⟨p, hp, List.forall_mem_cons.mpr ⟨fun hcov => ?_, fun u hu hcov => ?_⟩⟩
      · exact absurd hcov.2 (Nat.not_lt.mpr hp.behind)
      · exact absurd hcov.1 (Nat.not_le.mpr (hbefore u hu))
    · obtain ⟨p, hp, hnone⟩ := ih hdrop ht
      refine ⟨p, hp, List.forall_mem_cons.mpr ⟨fun hcov => ?_, hnone⟩⟩
      have hle := hrest.start_le t ht
      have hbehind := hp.behind
      have hbefore := hcov.2
      rw [hstop] at hbefore
      rw [Token.stop] at hbehind
      omega

theorem covered (h : Tiles file number owed k text ts) (hcs : cs.drop k = text) (hp : k ≤ p)
    (hlen : p < cs.length) :
    cs[p]? = some '\n' ∨ (owed = true ∧ ColonFrom cs k p) ∨
      (∃ t ∈ ts, t.kind = .label ∧ ColonFrom cs t.stop p) ∨ ∃ t ∈ ts, t.Covers p := by
  induction h with
  | nil => exact absurd hcs (by simp; omega)
  | newline _ ih =>
    have hk := getElem?_of_drop hcs
    rcases Nat.eq_or_lt_of_le hp with rfl | hlt
    · exact .inl hk
    · rcases ih (drop_succ_of_drop hcs) hlt with h | ⟨howed, h⟩ | h
      · exact .inl h
      · exact .inr (.inl ⟨howed, h.newline hk⟩)
      · exact .inr (.inr h)
  | colon _ ih =>
    have hk := getElem?_of_drop hcs
    rcases Nat.eq_or_lt_of_le hp with rfl | hlt
    · exact .inr (.inl ⟨rfl, .here hk⟩)
    · rcases ih (drop_succ_of_drop hcs) hlt with h | ⟨howed, -⟩ | h
      · exact .inl h
      · cases howed
      · exact .inr (.inr h)
  | @token t k r ts hloc hwhole hrest ih =>
    have hdrop := drop_token hcs
    have hstop := Token.stop_eq hloc
    -- A position behind the token is among what follows, where its colon may be owed to this token.
    by_cases hin : p < t.stop
    · refine .inr (.inr (.inr ⟨t, List.mem_cons_self .., ?_, hin⟩))
      rwa [Token.start_eq hloc]
    · rcases ih hdrop (by omega) with h | ⟨howed, h⟩ | ⟨u, hu, h⟩ | ⟨u, hu, h⟩
      · exact .inl h
      · rw [← hstop] at h
        exact .inr (.inr (.inl ⟨t, List.mem_cons_self .., of_decide_eq_true howed, h⟩))
      · exact .inr (.inr (.inl ⟨u, List.mem_cons_of_mem _ hu, h⟩))
      · exact .inr (.inr (.inr ⟨u, List.mem_cons_of_mem _ hu, h⟩))

end Tiles

/-- How the tokens of a line account for its characters. They come one behind the other, each is
what the line has in its place, and a character that none of them has is a line end or the colon of
a label. None of them could have been longer. -/
structure Accounts (file : String) (number : Int) (cs : List Char) (ts : List Token) : Prop where
  ordered : ts.Pairwise fun t u => t.start < u.start ∧ t.stop ≤ u.start
  location : ∀ t ∈ ts, t.location = ⟨file, number, t.start⟩
  text : ∀ t ∈ ts, t.text ≠ "" ∧ cs.extract t.start t.stop = t.text.toList
  oneLine : ∀ t ∈ ts, '\n' ∉ t.text.toList
  uncovered : ∀ p c, cs[p]? = some c →
    ((∀ t ∈ ts, ¬ t.Covers p) ↔
      c = '\n' ∨ ∃ t ∈ ts, t.kind = .label ∧ ColonFrom cs t.stop p)
  colon : ∀ t ∈ ts, t.kind = .label → ∃! p, ColonFrom cs t.stop p
  separate : ∀ t ∈ ts, ∀ u ∈ ts, t.stop = u.start →
    ¬ (t.IsWord ∧ u.IsWord) ∧ ¬ (t.kind = .whitespace ∧ u.kind = .whitespace)
  comment : ∀ t ∈ ts, t.kind = .comment → ∀ c, cs[t.stop]? = some c → c = '\n'

namespace Tiles

variable {file : String} {number : Int} {cs : List Char} {ts : List Token}

theorem accounts (h : Tiles file number false 0 cs ts) : Accounts file number cs ts := by
  have hcs : cs.drop 0 = cs := List.drop_zero
  have hlies := h.lies hcs
  constructor
  · refine h.ordered.imp_of_mem fun {t u} ht _ hle => ⟨?_, hle⟩
    exact Nat.lt_of_lt_of_le (hlies t ht).start_lt hle
  · exact fun t ht => (hlies t ht).location
  · refine fun t ht => ⟨fun hnil => (hlies t ht).whole.nonempty (by simp [hnil]), ?_⟩
    exact (hlies t ht).extract
  · exact fun t ht => (hlies t ht).whole.oneLine
  -- A character without a token is a line end or the colon of a label, as no colon is owed at the
  -- start.
  · intro p c hc
    constructor
    · intro hnone
      have hlen := (List.getElem?_eq_some_iff.mp hc).1
      rcases h.covered hcs (Nat.zero_le p) hlen with hp | ⟨howed, -⟩ | hp | ⟨t, ht, hp⟩
      · exact .inl (Option.some.inj (hc.symm.trans hp))
      · cases howed
      · exact .inr hp
      · exact absurd hp (hnone t ht)
    · rintro (rfl | ⟨t, ht, hlabel, hp⟩) u hu hcov
      · exact (hlies u hu).whole.oneLine ((hlies u hu).mem_of_covers hcov hc)
      · obtain ⟨q, hq, hnone⟩ := h.label_colon hcs ht hlabel
        rw [hp.unique hq] at hcov
        exact hnone u hu hcov
  · intro t ht hlabel
    obtain ⟨p, hp, -⟩ := h.label_colon hcs ht hlabel
    exact ⟨p, hp, fun q hq => hq.unique hp⟩
  · intro t ht u hu hadjacent
    obtain ⟨c, hc, hmem⟩ := (hlies u hu).head
    rw [← hadjacent] at hc
    constructor
    · rintro ⟨htword, huword⟩
      have hstop := (hlies t ht).whole.word htword c hc
      rw [huword c hmem] at hstop
      cases hstop
    · rintro ⟨htblank, hublank⟩
      have hstop := ((hlies t ht).whole.whitespace htblank).2 c hc
      rw [((hlies u hu).whole.whitespace hublank).1 c hmem] at hstop
      cases hstop
  · intro t ht hcomment c hc
    refine (hlies t ht).whole.comment hcomment c ?_
    rwa [List.head?_drop]

end Tiles

/-- The tokens of a line account for its characters. -/
theorem tokenizeLine_accounts (file : String) (number : Int) (text : String) :
    ∃ ls ts, LineScan.scan text = .ok ls ∧
      (tokenizeLine file number text).value = ⟨file, number, text, ts⟩ ∧
      ts = (Lexeme.classify file number false ls).value ∧
      Accounts file number text.toList ts :=
  ⟨_, _, LineScan.scan_eq text, rfl, rfl, (Tiles.of_classify rfl).accounts⟩

/-- A line end hides from sight how far the colon is from its label. -/
theorem colon_apart_from_label :
    ¬ ∀ p c, "a\n:".toList[p]? = some c →
      ((∀ t ∈ (tokenizeLine "f.s" 1 "a\n:").value.tokens, ¬ t.Covers p) ↔
        c = '\n' ∨ ∃ t ∈ (tokenizeLine "f.s" 1 "a\n:").value.tokens,
          t.kind = .label ∧ t.stop = p ∧ c = ':') := by
  have htokens : (tokenizeLine "f.s" 1 "a\n:").value.tokens =
      [⟨"a", .label, ⟨"f.s", 1, 0⟩⟩] := by decide +kernel
  rw [htokens]
  intro h
  have hcolon := (h 2 ':' rfl).mp (by decide)
  revert hcolon
  decide

end MipsToolchain
