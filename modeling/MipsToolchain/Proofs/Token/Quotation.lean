import MipsToolchain.Proofs.Token.Positions
import MipsToolchain.Proofs.Token.Spelling
import Mathlib.Data.List.Induction

namespace MipsToolchain

namespace Literal

variable {c e q : Char} {w r cs : List Char} {k : Nat}

section Backslashes

theorem endsEscaping_concat (w : List Char) (c : Char) :
    endsEscaping (w ++ [c]) = (c == '\\' && !endsEscaping w) := by
  unfold endsEscaping
  rw [List.reverse_concat]
  by_cases hc : c = '\\'
  · rw [List.takeWhile_cons_of_pos (by simpa using hc), List.length_cons]
    rcases Nat.mod_two_eq_zero_or_one (w.reverse.takeWhile (· = '\\')).length with h | h <;>
      simp [hc, h, Nat.add_mod]
  · rw [List.takeWhile_cons_of_neg (by simpa using hc)]
    simp [hc]

theorem endsEscaping_cons (hc : c ≠ '\\') (w : List Char) :
    endsEscaping (c :: w) = endsEscaping w := by
  induction w using List.reverseRecOn with
  | nil => simp [endsEscaping, hc]
  | append_singleton w d ih => rw [← List.cons_append, endsEscaping_concat, endsEscaping_concat, ih]

/-- A backslash and the character behind it do not count, since that character, too, can be a
backslash. -/
theorem endsEscaping_pair (e : Char) (w : List Char) :
    endsEscaping ('\\' :: e :: w) = endsEscaping w := by
  induction w using List.reverseRecOn with
  | nil =>
    have hone : endsEscaping ['\\'] = true := rfl
    have hpair := endsEscaping_concat ['\\'] e
    rw [hone, Bool.not_true, Bool.and_false] at hpair
    exact hpair
  | append_singleton w d ih =>
    rw [← List.cons_append, ← List.cons_append, endsEscaping_concat, endsEscaping_concat, ih]

end Backslashes

section Offsets

/-- Whether an unknown escape begins at a position: a backslash that is not itself hidden by the
backslashes in front of it, and behind it a character that no escape has. -/
def beginsUnknown (cs : List Char) (k : Nat) : Bool :=
  cs[k]? == some '\\' && !endsEscaping (cs.take k) && cs[k + 1]?.any fun e => (escape? e).isNone

theorem beginsUnknown_cons (hc : c ≠ '\\') (r : List Char) (k : Nat) :
    beginsUnknown (c :: r) (k + 1) = beginsUnknown r k := by
  simp only [beginsUnknown, List.getElem?_cons_succ, List.take_succ_cons, endsEscaping_cons hc]

theorem beginsUnknown_pair (e : Char) (r : List Char) (k : Nat) :
    beginsUnknown ('\\' :: e :: r) (k + 2) = beginsUnknown r k := by
  simp only [beginsUnknown, List.getElem?_cons_succ, List.take_succ_cons, endsEscaping_pair]

theorem beginsUnknown_zero (hc : c ≠ '\\') (r : List Char) : beginsUnknown (c :: r) 0 = false := by
  simp [beginsUnknown, hc]

def unknownEscapes (cs : List Char) : List Nat := (List.range cs.length).filter (beginsUnknown cs)

theorem unknownEscapes_cons (hc : c ≠ '\\') (r : List Char) :
    unknownEscapes (c :: r) = (unknownEscapes r).map (· + 1) := by
  unfold unknownEscapes
  rw [List.length_cons, List.range_succ_eq_map,
    List.filter_cons_of_neg (by rw [beginsUnknown_zero hc]; exact Bool.false_ne_true),
    List.filter_map]
  exact congrArg _ (List.filter_congr fun k _ => beginsUnknown_cons hc r k)

theorem unknownEscapes_pair (e : Char) (r : List Char) : unknownEscapes ('\\' :: e :: r) =
    (if (escape? e).isNone then [0] else []) ++ (unknownEscapes r).map (· + 2) := by
  have hhidden : beginsUnknown ('\\' :: e :: r) 1 = false := by
    simp [beginsUnknown, endsEscaping]
  have hrange : List.range (r.length + 2) = 0 :: 1 :: (List.range r.length).map (· + 2) := by
    rw [List.range_succ_eq_map, List.range_succ_eq_map, List.map_cons, List.map_map]
    rfl
  have hrest : ((List.range r.length).map (· + 2)).filter (beginsUnknown ('\\' :: e :: r)) =
      (unknownEscapes r).map (· + 2) := by
    rw [List.filter_map]
    exact congrArg _ (List.filter_congr fun k _ => beginsUnknown_pair e r k)
  have hfirst : beginsUnknown ('\\' :: e :: r) 0 = (escape? e).isNone := by
    simp [beginsUnknown, endsEscaping]
  have hne : ¬ beginsUnknown ('\\' :: e :: r) 1 := Bool.eq_false_iff.mp hhidden
  rw [unknownEscapes, List.length_cons, List.length_cons, hrange, List.filter_cons, hfirst,
    List.filter_cons_of_neg hne, hrest]
  split <;> rfl

theorem map_shift (position n : Nat) (ks : List Nat) :
    (ks.map (· + n)).map (position + ·) = ks.map (position + n + ·) := by
  rw [List.map_map]
  exact List.map_congr_left fun k _ => by simp only [Function.comp_apply]; omega

/-- The escapes that are resolved from left to right are those that are counted from the right. -/
theorem unknown_resolve (position : Nat) (cs : List Char) :
    (resolve position cs).2 = (unknownEscapes cs).map (position + ·) := by
  fun_induction resolve position cs with
  | case1 => rfl
  | case2 position e r text unknown hrest c hc ih =>
    rw [unknownEscapes_pair, hc, List.map_append, map_shift, ← ih, hrest]
    rfl
  | case3 position e r text unknown hrest hc ih =>
    rw [unknownEscapes_pair, hc, List.map_append, map_shift, ← ih, hrest]
    rfl
  | case4 position c r hc text unknown hrest ih =>
    by_cases hbackslash : c = '\\'
    · -- A backslash at the end begins nothing.
      cases r with
      | nil =>
        subst hbackslash
        cases hrest
        rfl
      | cons e r => exact (hc e r hbackslash rfl).elim
    · rw [unknownEscapes_cons hbackslash, map_shift, ← ih, hrest]

end Offsets

section Ends

variable {quote : Char}

def closes (quote : Char) (cs : List Char) : Bool :=
  cs.getLast? = some quote && !endsEscaping cs.dropLast

theorem closes_concat (w : List Char) (c : Char) :
    closes quote (w ++ [c]) = (decide (c = quote) && !endsEscaping w) := by
  rw [closes, List.getLast?_concat, List.dropLast_concat]
  simp

theorem closes_pair (e : Char) (w : List Char) :
    closes quote ('\\' :: e :: w) = closes quote w := by
  induction w using List.reverseRecOn with
  | nil => simp [closes, endsEscaping]
  | append_singleton w d _ =>
    rw [← List.cons_append, ← List.cons_append, closes_concat, closes_concat, endsEscaping_pair]

theorem closes_cons (hc : c ≠ '\\') (hq : c ≠ quote) (w : List Char) :
    closes quote (c :: w) = closes quote w := by
  induction w using List.reverseRecOn with
  | nil => simp [closes, hq]
  | append_singleton w d _ =>
    rw [← List.cons_append, closes_concat, closes_concat, endsEscaping_cons hc]

/-- A literal that is scanned from left to right is closed if its last character is a quote, as its
backslashes are counted from the right. -/
theorem closes_literal (hq : quote ≠ '\\') (r : List Char) :
    closes quote (r.take (Lexeme.literalExtent quote r).1) = (Lexeme.literalExtent quote r).2 := by
  fun_induction Lexeme.literalExtent quote r with
  | case1 => rfl
  | case2 r => simp [closes, hq.symm]
  | case3 e r he ih => rw [List.take_succ_cons, List.take_succ_cons, closes_pair, ih]
  | case4 r hr => simp [closes, endsEscaping]
  | case5 r hr hne => rfl
  | case6 c r hr hne hnewline ih =>
    rw [List.take_succ_cons]
    by_cases hc : c = '\\'
    · cases r with
      | nil => simp [closes, hne, Lexeme.literalExtent]
      | cons e r => exact (hr e r hc rfl).elim
    · rw [closes_cons hc hne, ih]

theorem body_cons (w : List Char) :
    body (quote :: w) = if closes quote w then w.dropLast else w := rfl

theorem unknownEscapes_concat (he : (escape? quote).isSome) (w : List Char) :
    unknownEscapes (w ++ [quote]) = unknownEscapes w := by
  have hlast : beginsUnknown (w ++ [quote]) w.length = false := by
    simp [beginsUnknown]
  unfold unknownEscapes
  rw [List.length_append, List.length_singleton, List.range_succ, List.filter_append,
    List.filter_cons_of_neg (by rw [hlast]; exact Bool.false_ne_true), List.filter_nil,
    List.append_nil]
  refine List.filter_congr fun k hk => ?_
  have hk := List.mem_range.mp hk
  rw [beginsUnknown, beginsUnknown, List.getElem?_append_left hk,
    List.take_append_of_le_length (Nat.le_of_lt hk)]
  by_cases hnext : k + 1 < w.length
  · rw [List.getElem?_append_left hnext]
  · obtain ⟨e, he⟩ := Option.isSome_iff_exists.mp he
    have hend : k + 1 = w.length := by omega
    simp [hend, he]

end Ends

section Scanned

variable {l : Lexeme} {text : List Char} {column : Nat}

theorem literal_of_extent {shape : LexemeShape} {n : Nat} {closed : Bool}
    (h : Lexeme.extent c r = (shape, n, closed)) (hs : shape = .string ∨ shape = .char) :
    (c = '"' ∨ c = '\'') ∧ Lexeme.literalExtent c r = (n, closed) := by
  unfold Lexeme.extent at h
  repeat' split at h
  case isFalse.isFalse.isFalse.isTrue hc =>
    subst hc
    exact ⟨.inl rfl, (Prod.mk.inj h).2⟩
  case isFalse.isFalse.isFalse.isFalse.isTrue hc =>
    subst hc
    exact ⟨.inr rfl, (Prod.mk.inj h).2⟩
  all_goals
    obtain ⟨rfl, -⟩ := Prod.mk.inj h
    rcases hs with hs | hs <;> cases hs

theorem literal_of_mem_scanFrom (hl : l ∈ Lexeme.scanFrom column text)
    (hs : l.shape = .string ∨ l.shape = .char) : ∃ q r, (q = '"' ∨ q = '\'') ∧
      l.text = q :: r.take (Lexeme.literalExtent q r).1 ∧
      l.closed = (Lexeme.literalExtent q r).2 := by
  fun_induction Lexeme.scanFrom column text with
  | case1 => cases hl
  | case2 column r ih => exact ih hl
  | case3 column c r hc shape n closed he ih =>
    rcases List.mem_cons.mp hl with rfl | hl
    · obtain ⟨hq, hextent⟩ := literal_of_extent he hs
      exact ⟨c, r, hq, by rw [hextent], by rw [hextent]⟩
    · exact ih hl

theorem unquote_of_scan (hl : l ∈ Lexeme.scanFrom column text)
    (hs : l.shape = .string ∨ l.shape = .char) : ∃ q w, (q = '"' ∨ q = '\'') ∧
      l.text = q :: (w ++ if l.closed then [q] else []) ∧ body l.text = w ∧
      unquote l.string = (String.ofList (resolve 1 w).1, unknownEscapes l.text) := by
  obtain ⟨q, r, hq, htext, hclosed⟩ := literal_of_mem_scanFrom hl hs
  have hquote : q ≠ '\\' ∧ (escape? q).isSome := by
    rcases hq with rfl | rfl <;> decide
  have hcloses := closes_literal hquote.1 r
  rw [← hclosed] at hcloses
  obtain ⟨w, hw, hbody⟩ : ∃ w, l.text = q :: (w ++ if l.closed then [q] else []) ∧
      body l.text = w := by
    rw [htext, body_cons, hcloses]
    cases hopen : l.closed with
    | false => exact ⟨_, by simp, rfl⟩
    | true =>
      rw [hopen, closes, Bool.and_eq_true, decide_eq_true_eq] at hcloses
      obtain ⟨w, hw⟩ := List.getLast?_eq_some_iff.mp hcloses.1
      exact ⟨w, by simp [hw], by simp [hw]⟩
  have hoffsets : unknownEscapes l.text = (resolve 1 w).2 := by
    have hlast : unknownEscapes (w ++ if l.closed then [q] else []) = unknownEscapes w := by
      cases l.closed with
      | false => exact congrArg unknownEscapes (List.append_nil w)
      | true => exact unknownEscapes_concat hquote.2 w
    rw [hw, unknownEscapes_cons hquote.1, hlast, unknown_resolve]
    exact List.map_congr_left fun k _ => Nat.add_comm k 1
  refine ⟨q, w, hq, hw, hbody, ?_⟩
  rw [unquote, Lexeme.string, String.toList_ofList, hbody, hoffsets]

end Scanned

section Quoting

def spellings : List (Char × Char) := [
  ('\\', '\\'), ('"', '"'), ('\n', 'n'), ('\t', 't'), ('\r', 'r'), (Char.ofNat 0, '0'),
  (Char.ofNat 7, 'a'), (Char.ofNat 8, 'b'), (Char.ofNat 12, 'f'), (Char.ofNat 11, 'v')]

def escaped (c : Char) : List Char :=
  match spellings.lookup c with
  | some e => ['\\', e]
  | none => [c]

/-- The string literal that spells a text, with escapes where there are any. -/
def quote (s : String) : String := String.ofList ('"' :: (s.toList.flatMap escaped ++ ['"']))

theorem escaped_cases (c : Char) :
    (∃ e, escaped c = ['\\', e] ∧ escape? e = some c ∧ e ≠ '\n') ∨
      (escaped c = [c] ∧ c ≠ '\\' ∧ c ≠ '"' ∧ c ≠ '\n') := by
  have hspellings : ∀ p ∈ spellings, escape? p.2 = some p.1 ∧ p.2 ≠ '\n' := by decide
  unfold escaped
  cases hc : spellings.lookup c with
  | some e =>
    obtain ⟨pre, post, heq, -⟩ := List.lookup_eq_some_iff.mp hc
    exact .inl ⟨e, rfl, hspellings (c, e) (by rw [heq]; simp)⟩
  | none =>
    have hnone := List.lookup_eq_none_iff.mp hc
    refine .inr ⟨rfl, ?_, ?_, ?_⟩ <;>
    · rintro rfl
      revert hnone
      decide

theorem resolve_escaped (cs : List Char) (position : Nat) :
    resolve position (cs.flatMap escaped) = (cs, []) := by
  induction cs generalizing position with
  | nil => rfl
  | cons c cs ih =>
    rw [List.flatMap_cons]
    rcases escaped_cases c with ⟨e, he, hc, -⟩ | ⟨he, hc, -, -⟩
    · rw [he, List.cons_append, List.singleton_append, resolve, ih, hc]
    · rw [he, List.singleton_append, resolve, ih]
      exact fun e r h => absurd h hc

theorem literalExtent_escaped (cs rest : List Char) :
    Lexeme.literalExtent '"' (cs.flatMap escaped ++ '"' :: rest) =
      ((cs.flatMap escaped).length + 1, true) := by
  induction cs with
  | nil => rfl
  | cons c cs ih =>
    rw [List.flatMap_cons, List.append_assoc, List.length_append]
    rcases escaped_cases c with ⟨e, he, -, hnewline⟩ | ⟨he, hc, hquote, hnewline⟩
    · rw [he, List.cons_append, List.singleton_append, Lexeme.literalExtent, if_neg hnewline, ih]
      exact congrArg (·, true) (by simp only [List.length_cons, List.length_nil]; omega)
    · rw [he, List.singleton_append, Lexeme.literalExtent, if_neg hquote, if_neg hnewline, ih]
      · exact congrArg (·, true) (by simp only [List.length_cons, List.length_nil]; omega)
      · exact fun e r h => absurd h hc

theorem unquote_quote (s : String) : unquote (quote s) = (s, []) := by
  have hcloses : closes '"' (s.toList.flatMap escaped ++ ['"']) = true := by
    have hquote : '"' ≠ '\\' := by decide
    have hliteral := closes_literal hquote (s.toList.flatMap escaped ++ ['"'])
    rw [literalExtent_escaped s.toList []] at hliteral
    rwa [List.take_of_length_le (by simp)] at hliteral
  rw [unquote, quote, String.toList_ofList, body_cons, if_pos hcloses, List.dropLast_concat,
    resolve_escaped]
  exact congrArg (·, []) String.ofList_toList

end Quoting

end Literal

namespace Lexeme

variable {rest : List Char} {spec : List (TokenKind × String)}

theorem scanFrom_quote (s : String) (column : Nat) :
    scanFrom column ((Literal.quote s).toList ++ rest) =
      ⟨.string, (Literal.quote s).toList, column, true⟩ ::
        scanFrom (column + (Literal.quote s).toList.length) rest := by
  rw [Literal.quote, String.toList_ofList, List.cons_append, List.append_assoc,
    List.singleton_append]
  generalize hw : s.toList.flatMap Literal.escaped = w
  have hextent : extent '"' (w ++ '"' :: rest) = (.string, w.length + 1, true) := by
    rw [← hw, ← Literal.literalExtent_escaped]
    rfl
  rw [scanFrom, if_neg (by decide), hextent]
  simp [List.take_append, List.drop_append, List.take_of_length_le, List.drop_of_length_le,
    Nat.add_assoc, Nat.add_comm 1]

theorem kind_quote (s : String) (column : Nat) (loc : Source.Location) (started colon : Bool) :
    (⟨.string, (Literal.quote s).toList, column, true⟩ : Lexeme).kind loc started colon =
      pure .string := by
  have hunquote : Literal.unquote (String.ofList (Literal.quote s).toList) = (s, []) := by
    rw [String.ofList_toList, Literal.unquote_quote]
  simp only [kind, checkLiteral, string, hunquote]
  rfl

theorem Spells.string (s : String) (h : Spells rest spec) :
    Spells ((Literal.quote s).toList ++ rest) ((.string, Literal.quote s) :: spec) := by
  refine .cons (l := fun column => ⟨.string, (Literal.quote s).toList, column, true⟩)
    (fun column => scanFrom_quote s column) (fun _ _ _ => kind_quote s _ _ _ _) (by decide)
    (fun column => ?_) h
  rw [Lexeme.string, String.ofList_toList]

end Lexeme

end MipsToolchain
