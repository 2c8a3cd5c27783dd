import Mathlib.Data.List.TakeWhile
import MipsToolchain.Proofs.Effects
import MipsToolchain.Scanner

namespace MipsToolchain.Scanner

section Spans

attribute [local simp] run

def Single (x : Scanner) (p : Char → Bool) : Prop :=
  ∀ text, x.run text = if text.head?.any p then 1 else 0

variable {x y : Scanner} {p q : Char → Bool} {xs : List Scanner} {cs : List Char}

theorem single_within (lo hi : Char) : Single (within lo hi) fun c => lo ≤ c ∧ c ≤ hi := by
  intro text
  cases text with
  | nil => rfl
  | cons c r => simp [matchWithin]

theorem single_unit (c : Char) : Single (unit [c]) (· == c) := by
  intro text
  cases text with
  | nil => rfl
  | cons d r =>
    rw [run]
    simp [eq_comm (a := c)]

theorem single_any_nil : Single (any []) fun _ => false := by
  intro text
  cases text <;> rfl

theorem Single.any_cons (hx : Single x p) (hxs : Single (any xs) q) :
    Single (any (x :: xs)) fun c => p c || q c := by
  intro text
  have hx := hx text
  have hxs := hxs text
  rw [run] at hxs ⊢
  rw [runAny, hx, hxs]
  cases text with
  | nil => rfl
  | cons c r =>
    simp only [List.head?_cons, Option.any_some]
    by_cases hp : p c <;> by_cases hq : q c <;> simp only [hp, hq] <;> rfl

theorem Single.congr (hx : Single x p) (h : ∀ c, p c ↔ q c) : Single x q := by
  rwa [← funext fun c => Bool.eq_iff_iff.mpr (h c)]

theorem Single.many (hx : Single x p) (text : List Char) :
    (many x).run text = (text.takeWhile p).length := by
  rw [run]
  induction text with
  | nil => rw [matchMany]; rfl
  | cons c r ih =>
    rw [matchMany, hx (c :: r)]
    cases hc : p c <;> simp [hc, ih, Nat.add_comm]

theorem run_sequence_pair (x y : Scanner) (cs : List Char) : (sequence [x, y]).run cs =
    if x.run cs = 0 ∨ y.run (cs.drop (x.run cs)) = 0 then 0
    else x.run cs + y.run (cs.drop (x.run cs)) := by
  rw [run, runSequence]
  cases x.run cs with
  | zero => rfl
  | succ n =>
    simp only [runSequence]
    cases y.run (cs.drop (n + 1)) <;> simp

theorem run_sequenceOpt_pair (x y : Scanner) (cs : List Char) : (sequenceOpt [x, y]).run cs =
    if x.run cs = 0 then 0 else x.run cs + y.run (cs.drop (x.run cs)) := by
  rw [run, runSequenceOpt]
  · cases x.run cs with
    | zero => rfl
    | succ n => simp [runSequenceOpt]
  · nofun

theorem run_span (hx : Single x p) (hy : Single y q) (text : List Char) :
    (sequenceOpt [x, many y]).run text =
      match text with
      | [] => 0
      | c :: r => if p c then (r.takeWhile q).length + 1 else 0 := by
  rw [run_sequenceOpt_pair, hx text]
  cases text with
  | nil => rfl
  | cons c r => cases hc : p c <;> simp [-run, hc, hy.many, Nat.add_comm]

theorem length_takeWhile_eq : (cs.takeWhile p).length = cs.length ↔ ∀ c ∈ cs, p c := by
  rw [← List.takeWhile_eq_self_iff]
  exact ⟨(List.takeWhile_prefix p).eq_of_length, congrArg List.length⟩

theorem accepts_span (hx : Single x p) (hy : Single y q) :
    (sequenceOpt [x, many y]).accepts cs ↔ ∃ c r, cs = c :: r ∧ p c ∧ ∀ d ∈ r, q d := by
  cases cs with
  | nil => simp [accepts]
  | cons c r =>
    have hspan : (∃ c' r', c :: r = c' :: r' ∧ p c' ∧ ∀ d ∈ r', q d) ↔ p c ∧ ∀ d ∈ r, q d :=
      ⟨fun ⟨_, _, heq, h⟩ => by cases heq; exact h, fun h => ⟨c, r, rfl, h⟩⟩
    rw [accepts, run_span hx hy, hspan]
    by_cases hc : p c <;> simp [hc, length_takeWhile_eq]

theorem accepts_any (h : xs.Pairwise fun x y => x.run cs ≠ 0 → ¬ y.accepts cs) :
    (any xs).accepts cs ↔ ∃ x ∈ xs, x.accepts cs := by
  induction xs with
  | nil => cases cs <;> simp [accepts, runAny]
  | cons x xs ih =>
    obtain ⟨hx, hxs⟩ := List.pairwise_cons.mp h
    simp only [List.mem_cons, exists_eq_or_imp, ← ih hxs]
    by_cases hzero : x.run cs = 0
    · have hrun : (any (x :: xs)).run cs = (any xs).run cs := by
        simp only [run, runAny, hzero]
      have hnot : ¬ x.accepts cs := by cases cs <;> simp [accepts, hzero]
      rw [accepts, hrun, ← accepts]
      exact ⟨.inr, fun h => h.resolve_left hnot⟩
    · have hrun : (any (x :: xs)).run cs = x.run cs := by
        rw [run, runAny]
        split
        · next h => exact absurd h hzero
        · rfl
      have hnot : ¬ (any xs).accepts cs := by
        rw [ih hxs]
        rintro ⟨y, hy, haccepts⟩
        exact hx y hy hzero haccepts
      rw [accepts, hrun, ← accepts]
      exact ⟨.inl, fun h => h.resolve_right hnot⟩

end Spans

/-- Induction on a scanner with its parts, wherever they stand in a list of parts. -/
@[elab_as_elim]
theorem induction_parts {motive : Scanner → Prop} (unit : ∀ cs, motive (unit cs))
    (caseless : ∀ s, motive (caseless s)) (within : ∀ lo hi, motive (within lo hi))
    (all : ∀ xs, (∀ x ∈ xs, motive x) → motive (all xs))
    (any : ∀ xs, (∀ x ∈ xs, motive x) → motive (any xs))
    (many : ∀ x, motive x → motive (many x))
    (sequence : ∀ xs, (∀ x ∈ xs, motive x) → motive (sequence xs))
    (sequenceOpt : ∀ xs, (∀ x ∈ xs, motive x) → motive (sequenceOpt xs)) (x : Scanner) :
    motive x :=
  Scanner.rec unit caseless within all any many sequence sequenceOpt (by simp)
    (fun _ _ hx hxs => List.forall_mem_cons.mpr ⟨hx, hxs⟩) x

variable {x : Scanner} {xs : List Scanner} {text : List Char} {f : List Char → Nat}

section Equations

theorem runAll_cons : runAll (x :: xs) text =
    if x.run text = 0 then none else (runAll xs text).map (max (x.run text)) := by
  rw [runAll]
  split
  · next h => rw [if_pos h]
  · next h => rw [if_neg h]

theorem runAny_cons : runAny (x :: xs) text =
    if x.run text = 0 then runAny xs text else x.run text := by
  rw [runAny]
  split
  · next h => rw [if_pos h]
  · next h => rw [if_neg h]

theorem runSequence_cons : runSequence (x :: xs) text =
    if x.run text = 0 then none
    else (runSequence xs (text.drop (x.run text))).map (x.run text + ·) := by
  rw [runSequence]
  split
  · next h => rw [if_pos h]
  · next h => rw [if_neg h]

theorem runSequenceOpt_cons (hxs : xs ≠ []) : runSequenceOpt (x :: xs) text =
    if x.run text = 0 then none
    else (runSequenceOpt xs (text.drop (x.run text))).map (x.run text + ·) := by
  rw [runSequenceOpt]
  · split
    · next h => rw [if_pos h]
    · next h => rw [if_neg h]
  · exact hxs

theorem matchMany_eq : matchMany f text =
    if text = [] ∨ f text = 0 then 0 else f text + matchMany f (text.drop (f text)) := by
  cases text with
  | nil =>
    rw [matchMany]
    rfl
  | cons c r =>
    rw [matchMany]
    simp only [reduceCtorEq, false_or]
    split
    · rfl
    · next hne =>
      obtain ⟨n, hn⟩ := Nat.exists_eq_succ_of_ne_zero hne
      rw [hn, List.drop_succ_cons, Nat.succ_sub_one]

end Equations

section Bounds

theorem matchCaseless_le (s : String) (text : List Char) : matchCaseless s text ≤ text.length := by
  unfold matchCaseless
  split
  · exact Nat.zero_le _
  · split
    · omega
    · exact Nat.zero_le _

theorem matchMany_le (hf : ∀ text, f text ≤ text.length) (text : List Char) :
    matchMany f text ≤ text.length := by
  induction h : text.length using Nat.strongRecOn generalizing text with
  | _ k ih =>
    rw [matchMany_eq]
    split
    · exact Nat.zero_le _
    · next hmatch =>
      have hn := hf text
      have hrest := ih (text.length - f text) (by omega) (text.drop (f text)) List.length_drop
      omega

theorem runAll_le (h : ∀ x ∈ xs, ∀ text, x.run text ≤ text.length) {n : Nat}
    (hn : n ∈ runAll xs text) : n ≤ text.length := by
  induction xs generalizing n with
  | nil =>
    cases hn
    exact Nat.zero_le _
  | cons x xs ih =>
    obtain ⟨hx, hxs⟩ := List.forall_mem_cons.mp h
    rw [runAll_cons] at hn
    split at hn
    · cases hn
    · obtain ⟨m, hm, rfl⟩ := Option.map_eq_some_iff.mp hn
      exact Nat.max_le.mpr ⟨hx text, ih hxs hm⟩

theorem runAny_le (h : ∀ x ∈ xs, ∀ text, x.run text ≤ text.length) :
    runAny xs text ≤ text.length := by
  induction xs with
  | nil => exact Nat.zero_le _
  | cons x xs ih =>
    obtain ⟨hx, hxs⟩ := List.forall_mem_cons.mp h
    rw [runAny_cons]
    split
    · exact ih hxs
    · exact hx text

theorem runSequence_le (h : ∀ x ∈ xs, ∀ text, x.run text ≤ text.length) {n : Nat}
    (hn : n ∈ runSequence xs text) : n ≤ text.length := by
  induction xs generalizing text n with
  | nil =>
    cases hn
    exact Nat.zero_le _
  | cons x xs ih =>
    obtain ⟨hx, hxs⟩ := List.forall_mem_cons.mp h
    rw [runSequence_cons] at hn
    split at hn
    · cases hn
    · obtain ⟨m, hm, rfl⟩ := Option.map_eq_some_iff.mp hn
      have hrest := ih hxs hm
      rw [List.length_drop] at hrest
      have hfirst := hx text
      omega

theorem runSequenceOpt_le (h : ∀ x ∈ xs, ∀ text, x.run text ≤ text.length) {n : Nat}
    (hn : n ∈ runSequenceOpt xs text) : n ≤ text.length := by
  induction xs generalizing text n with
  | nil =>
    cases hn
    exact Nat.zero_le _
  | cons x xs ih =>
    obtain ⟨hx, hxs⟩ := List.forall_mem_cons.mp h
    by_cases hnil : xs = []
    · subst hnil
      cases hn
      exact hx text
    · rw [runSequenceOpt_cons hnil] at hn
      split at hn
      · cases hn
      · obtain ⟨m, hm, rfl⟩ := Option.map_eq_some_iff.mp hn
        have hrest := ih hxs hm
        rw [List.length_drop] at hrest
        have hfirst := hx text
        omega

theorem run_le_length (x : Scanner) (text : List Char) : x.run text ≤ text.length := by
  have hgetD {o : Option Nat} {k : Nat} (h : ∀ n ∈ o, n ≤ k) : o.getD 0 ≤ k := by
    cases o with
    | none => exact Nat.zero_le _
    | some n => exact h n rfl
  induction x using induction_parts generalizing text with
  | unit cs =>
    rw [run]
    split
    · next h => exact (List.isPrefixOf_iff_prefix.mp h).length_le
    · exact Nat.zero_le _
  | caseless s =>
    rw [run]
    exact matchCaseless_le s text
  | within lo hi =>
    rw [run]
    cases text with
    | nil => exact Nat.le_refl _
    | cons c r =>
      rw [matchWithin, List.length_cons]
      split <;> omega
  | all xs ih =>
    rw [run]
    exact hgetD fun _ hn => runAll_le ih hn
  | any xs ih =>
    rw [run]
    exact runAny_le ih
  | many x ih =>
    rw [run]
    exact matchMany_le ih text
  | sequence xs ih =>
    rw [run]
    exact hgetD fun _ hn => runSequence_le ih hn
  | sequenceOpt xs ih =>
    rw [run]
    exact hgetD fun _ hn => runSequenceOpt_le ih hn

theorem run_nil (x : Scanner) : x.run [] = 0 := Nat.le_zero.mp (x.run_le_length [])

end Bounds

section Encoding

theorem utf8ByteSize_cons (c : Char) (cs : List Char) :
    (String.ofList (c :: cs)).utf8ByteSize = c.utf8Size + (String.ofList cs).utf8ByteSize := by
  have hsplit : String.ofList (c :: cs) = String.ofList [c] ++ String.ofList cs := by
    rw [← String.ofList_append]
    rfl
  rw [hsplit, String.utf8ByteSize_append, ← String.singleton_eq_ofList,
    String.utf8ByteSize_singleton]

theorem length_le_utf8ByteSize_ofList (cs : List Char) :
    cs.length ≤ (String.ofList cs).utf8ByteSize := by
  induction cs with
  | nil => exact Nat.zero_le _
  | cons c cs ih =>
    have hc := c.utf8Size_pos
    rw [utf8ByteSize_cons, List.length_cons]
    omega

theorem length_le_utf8ByteSize (s : String) : s.toList.length ≤ s.utf8ByteSize := by
  have hle := length_le_utf8ByteSize_ofList s.toList
  rwa [String.ofList_toList] at hle

end Encoding

section Places

variable {g : List Char → Except Fault Nat} {k : Nat}

theorem behind_eq (h : k ≤ text.length) : behind text k = .ok (text.drop k) := if_pos h

theorem agreeFrom_eq (fold : Char → Char) {cs : List Char} (h : k + cs.length ≤ text.length) :
    agreeFrom fold text k cs = .ok ((cs.map fold).isPrefixOf ((text.drop k).map fold)) := by
  induction cs generalizing k with
  | nil => rfl
  | cons c cs ih =>
    rw [List.length_cons] at h
    rw [agreeFrom, elementAt_of_lt (by omega), List.drop_eq_getElem_cons (by omega), List.map_cons,
      List.map_cons, List.isPrefixOf]
    change (if fold c = fold text[k] then agreeFrom fold text (k + 1) cs else .ok false) = _
    by_cases hc : fold c = fold text[k]
    · rw [if_pos hc, ih (by omega), beq_iff_eq.mpr hc, Bool.true_and]
    · rw [if_neg hc, beq_eq_false_iff_ne.mpr hc, Bool.false_and]

theorem scanMany_eq (hg : ∀ text, g text = .ok (f text)) (hf : ∀ text, f text ≤ text.length)
    {rounds : Nat} (hk : k ≤ text.length) (hrounds : text.length ≤ k + rounds) :
    scanMany g text rounds k = .ok (k + matchMany f (text.drop k)) := by
  induction rounds generalizing k with
  | zero =>
    have hend : k = text.length := by omega
    subst hend
    rw [scanMany, if_neg (Nat.lt_irrefl _), List.drop_length, matchMany]
    rfl
  | succ rounds ih =>
    rw [scanMany]
    split
    · next hlt =>
      have hrest := hf (text.drop k)
      rw [List.length_drop] at hrest
      have hne : text.drop k ≠ [] := by simpa using hlt
      rw [behind_eq hk, matchMany_eq, List.drop_drop]
      change (g (text.drop k) >>= fun n =>
        if n = 0 then .ok k else scanMany g text rounds (k + n)) = _
      rw [hg]
      change (if f (text.drop k) = 0 then .ok k else scanMany g text rounds (k + f (text.drop k))) = _
      by_cases hzero : f (text.drop k) = 0
      · rw [if_pos hzero, if_pos (.inr hzero)]
        rfl
      · rw [if_neg hzero, if_neg (by simp [hne, hzero]), ih (by omega) (by omega), Nat.add_assoc]
    · next hend =>
      rw [List.drop_of_length_le (by omega), matchMany]
      rfl

end Places

section Parts

/-- One part of a sequence with parts behind it, which `g` scans from a place on and which match
`rest` in what the part leaves. -/
theorem scanPart_eq {x : Scanner} {k : Nat} {g : Nat → Except Fault Nat} {rest : Option Nat}
    (hx : ∀ text, x.scan text = .ok (x.run text)) (hk : k ≤ text.length)
    (hg : k + x.run (text.drop k) ≤ text.length →
      g (k + x.run (text.drop k)) =
        .ok ((rest.map (k + x.run (text.drop k) + ·)).getD 0)) :
    (if k = text.length then Except.ok 0 else do
      let n ← x.scan (← behind text k)
      if n = 0 then return 0 else g (k + n)) =
      .ok (((if x.run (text.drop k) = 0 then none
        else rest.map (x.run (text.drop k) + ·)).map (k + ·)).getD 0) := by
  split
  · next hend =>
    rw [hend, List.drop_length, run_nil, if_pos rfl]
    rfl
  · have hle := x.run_le_length (text.drop k)
    rw [List.length_drop] at hle
    rw [behind_eq hk]
    change (x.scan (text.drop k) >>= fun n => if n = 0 then .ok 0 else g (k + n)) = _
    rw [hx]
    change (if x.run (text.drop k) = 0 then .ok 0 else g (k + x.run (text.drop k))) = _
    split
    · rfl
    · rw [hg (by omega), Option.map_map]
      simp only [Function.comp_def, Nat.add_assoc]

variable (h : ∀ x ∈ xs, ∀ text, x.scan text = .ok (x.run text))

include h

theorem scanAll_eq (m : Nat) :
    scanAll xs text m = .ok (((runAll xs text).map (max m)).getD 0) := by
  induction xs generalizing m with
  | nil => exact congrArg Except.ok (Nat.max_zero m).symm
  | cons x xs ih =>
    obtain ⟨hx, hxs⟩ := List.forall_mem_cons.mp h
    rw [scanAll, hx, runAll_cons]
    change (if x.run text = 0 then .ok 0 else scanAll xs text (max m (x.run text))) = _
    split
    · rfl
    · rw [ih hxs, Option.map_map]
      simp only [Function.comp_def, ← Nat.max_assoc]

theorem scanAny_eq : scanAny xs text = .ok (runAny xs text) := by
  induction xs with
  | nil => rfl
  | cons x xs ih =>
    obtain ⟨hx, hxs⟩ := List.forall_mem_cons.mp h
    rw [scanAny, hx, runAny_cons]
    change (if 0 < x.run text then .ok (x.run text) else scanAny xs text) = _
    by_cases hzero : x.run text = 0
    · rw [if_neg (by omega), if_pos hzero, ih hxs]
    · rw [if_pos (by omega), if_neg hzero]

theorem scanSequence_eq {k : Nat} (hk : k ≤ text.length) : scanSequence xs text k =
    .ok (((runSequence xs (text.drop k)).map (k + ·)).getD 0) := by
  induction xs generalizing k with
  | nil => rfl
  | cons x xs ih =>
    obtain ⟨hx, hxs⟩ := List.forall_mem_cons.mp h
    rw [scanSequence, runSequence_cons]
    refine scanPart_eq hx hk fun hle => ?_
    rw [ih hxs hle, List.drop_drop]

theorem scanSequenceOpt_eq {k : Nat} (hk : k ≤ text.length) : scanSequenceOpt xs text k =
    .ok (((runSequenceOpt xs (text.drop k)).map (k + ·)).getD 0) := by
  induction xs generalizing k with
  | nil => rfl
  | cons x xs ih =>
    obtain ⟨hx, hxs⟩ := List.forall_mem_cons.mp h
    by_cases hnil : xs = []
    · -- The last part may match nothing, which at the end of the text is found without a look at it.
      subst hnil
      rw [scanSequenceOpt, runSequenceOpt]
      split
      · next hend =>
        rw [hend, List.drop_length, run_nil]
        rfl
      · rw [behind_eq hk]
        change (x.scan (text.drop k) >>= fun n => .ok (k + n)) = _
        rw [hx]
        rfl
    · rw [scanSequenceOpt, runSequenceOpt_cons hnil]
      · refine scanPart_eq hx hk fun hle => ?_
        rw [ih hxs hle, List.drop_drop]
      · exact hnil

end Parts

/-- Scanning by places never leaves the text, comes to its end and matches what `run` matches. -/
theorem scan_eq_run (x : Scanner) (text : List Char) : x.scan text = .ok (x.run text) := by
  -- By parts, since the scans of a list of parts are stated for any parts with the property.
  induction x using induction_parts generalizing text with
  | unit cs =>
    rw [scan, run]
    split
    · next hlt =>
      rw [if_neg]
      intro hstart
      have hle := (List.isPrefixOf_iff_prefix.mp hstart).length_le
      omega
    · rw [agreeFrom_eq id (by omega), List.map_id, List.map_id, List.drop_zero]
      rfl
  | caseless s =>
    rw [scan, run, matchCaseless]
    split
    · rfl
    · next hlt =>
      have hle := length_le_utf8ByteSize s
      rw [agreeFrom_eq Char.toLower (by omega), List.drop_zero]
      rfl
  | within lo hi =>
    rw [scan, run]
    cases text with
    | nil => rfl
    | cons c r =>
      rw [if_neg (by simp), elementAt_of_lt (by simp)]
      rfl
  | all xs ih =>
    rw [scan, run, scanAll_eq ih]
    cases runAll xs text <;> simp
  | any xs ih => rw [scan, run, scanAny_eq ih]
  | many x ih =>
    rw [scan, run, scanMany_eq ih x.run_le_length (Nat.zero_le _) (by omega), List.drop_zero,
      Nat.zero_add]
  | sequence xs ih =>
    rw [scan, run, scanSequence_eq ih (Nat.zero_le _)]
    simp
  | sequenceOpt xs ih =>
    rw [scan, run, scanSequenceOpt_eq ih (Nat.zero_le _)]
    simp

end MipsToolchain.Scanner
