import MipsToolchain.Proofs.Expr.Grammar
import MipsToolchain.Token.Tokenize

namespace MipsToolchain

namespace Expr

open ExprBuilder

/-- Whether an operand of a level can grow inside frames without closing the innermost of them. -/
def Admits (p : Nat) : List ExprFrame → Prop
  | .unary _ _ :: _ => unaryLevel ≤ p
  | .binary op _ _ :: _ => level op < p
  | _ => True

/-- The tokens that frames stand for. Every frame could take the place of an operand of the frame
outside it. -/
inductive Spine : List ExprFrame → List Token → Prop
  | nil : Spine [] []
  | group {t : Token} {fs : List ExprFrame} {ts : List Token} : t.kind = .lparen → Spine fs ts →
      Spine (.group t :: fs) (ts ++ [t])
  | unary {op : UnaryOperator} {t : Token} {fs : List ExprFrame} {ts : List Token} :
      t.kind = .operator → t.text = op.symbol → Spine fs ts → Spine (.unary op t :: fs) (ts ++ [t])
  | binary {op : BinaryOperator} {t : Token} {l : Expr} {ls : List Token} {fs : List ExprFrame}
      {ts : List Token} : t.kind = .operator → t.text = op.symbol → Reads (level op) ls l →
      Admits (level op) fs → Spine fs ts → Spine (.binary op t l :: fs) (ts ++ ls ++ [t])

theorem admits_unaryLevel (fs : List ExprFrame) : Admits unaryLevel fs := by
  match fs with
  | [] => trivial
  | .group _ :: _ => trivial
  | .unary _ _ :: _ => exact Nat.le_refl _
  | .binary op _ _ :: _ => exact level_lt_unaryLevel op

theorem Admits.mono {p q : Nat} {fs : List ExprFrame} (h : Admits p fs) (hq : p ≤ q) :
    Admits q fs := by
  match fs, h with
  | [], _ => trivial
  | .group _ :: _, _ => trivial
  | .unary _ _ :: _, h => exact Nat.le_trans h hq
  | .binary _ _ _ :: _, h => exact Nat.lt_of_lt_of_le h hq

/-- Closing the innermost frame around an operand it admits gives an operand of the frame's own
level, which the next frame admits. -/
theorem Spine.fill {f : ExprFrame} {fs : List ExprFrame} {us vs : List Token} {p : Nat} {e : Expr}
    (hs : Spine (f :: fs) us) (he : Reads p vs e) (ha : Admits p (f :: fs))
    (hf : f.groupToken? = none) :
    ∃ q us' ws, f.precedence? = some (q + 1) ∧ Spine fs us' ∧ Reads q ws (f.fill e) ∧
      Admits q fs ∧ us ++ vs = us' ++ ws := by
  cases hs with
  | group => cases hf
  | @unary op t _ ts hk ht hs =>
    refine ⟨unaryLevel, ts, t :: vs, rfl, hs, ?_, admits_unaryLevel fs, by simp⟩
    exact .unary (Nat.le_refl _) hk ht (he.mono ha)
  | @binary op t l ls _ ts hk ht hl hadm hs =>
    refine ⟨level op, ts, ls ++ t :: vs, ?_, hs, ?_, hadm, by simp⟩
    · rw [ExprFrame.precedence?, precedence_eq_level]
    · exact .binary (Nat.le_refl _) hk ht hl (he.mono ha)

theorem precedence?_eq_none {f : ExprFrame} (h : f.precedence? = none) :
    ∃ t, f = .group t := by
  cases f with
  | group t => exact ⟨t, rfl⟩
  | unary => cases h
  | binary => cases h

theorem groupToken?_eq_none {f : ExprFrame} {k : Nat} (h : f.precedence? = some k) :
    f.groupToken? = none := by
  cases f <;> first | rfl | cases h

theorem admits_of_lt {f : ExprFrame} {fs : List ExprFrame} {p k : Nat}
    (h : f.precedence? = some k) (hlt : k < p + 1) : Admits p (f :: fs) := by
  cases f with
  | unary op t =>
    have : unaryLevel + 1 = k := Option.some.inj h
    exact (by omega : unaryLevel ≤ p)
  | binary op t l =>
    have : level op + 1 = k := by
      rw [← precedence_eq_level]
      exact Option.some.inj h
    exact (by omega : level op < p)
  | group => cases h

theorem reads_climb {k p : Nat} {fs : List ExprFrame} {us vs : List Token} {e : Expr}
    (hs : Spine fs us) (he : Reads p vs e) (ha : Admits p fs) (hk : k ≤ p) :
    ∃ us' ls, Spine (climb (k + 1) e fs).2 us' ∧ Reads k ls (climb (k + 1) e fs).1 ∧
      Admits k (climb (k + 1) e fs).2 ∧ us ++ vs = us' ++ ls := by
  induction fs generalizing us vs e p with
  | nil => exact ⟨us, vs, hs, he.mono hk, trivial, rfl⟩
  | cons f fs ih =>
    cases hp : f.precedence? with
    | none =>
      obtain ⟨t, rfl⟩ := precedence?_eq_none hp
      exact ⟨us, vs, hs, he.mono hk, trivial, rfl⟩
    | some k' =>
      simp only [climb, hp]
      split
      · next hle =>
        obtain ⟨q, us', ws, hq, hs', hr, ha', heq⟩ := hs.fill he ha (groupToken?_eq_none hp)
        rw [hp] at hq
        cases hq
        obtain ⟨us'', ls, h1, h2, h3, h4⟩ := ih hs' hr ha' (by omega)
        exact ⟨us'', ls, h1, h2, h3, heq.trans h4⟩
      · next hlt => exact ⟨us, vs, hs, he.mono hk, admits_of_lt hp (by omega), rfl⟩

theorem reads_closeTo {p : Nat} {fs fs' : List ExprFrame} {us vs : List Token} {e g : Expr}
    (hs : Spine fs us) (he : Reads p vs e) (ha : Admits p fs)
    (hc : closeTo e fs = some (g, fs')) :
    ∃ us' t ws i, Spine fs' us' ∧ t.kind = .lparen ∧ Reads 0 ws i ∧ g = .group t i ∧
      us ++ vs = us' ++ t :: ws := by
  induction fs generalizing us vs e p with
  | nil => cases hc
  | cons f fs ih =>
    cases hg : f.groupToken? with
    | some t =>
      cases f with
      | group t' =>
        cases hc
        cases hs with
        | @group _ _ ts ht hs => exact ⟨ts, t', vs, e, hs, ht, he.mono (Nat.zero_le _), rfl, by simp⟩
      | unary => cases hg
      | binary => cases hg
    | none =>
      obtain ⟨q, us', ws, -, hs', hr, ha', heq⟩ := hs.fill he ha hg
      have hc' : closeTo (f.fill e) fs = some (g, fs') := by
        cases f with
        | group => cases hg
        | unary => exact hc
        | binary => exact hc
      obtain ⟨us'', t, ws', i, h1, h2, h3, h4, h5⟩ := ih hs' hr ha' hc'
      exact ⟨us'', t, ws', i, h1, h2, h3, h4, heq.trans h5⟩

theorem reads_closeAll {p : Nat} {fs : List ExprFrame} {us vs : List Token} {e : Expr}
    (hs : Spine fs us) (he : Reads p vs e) (ha : Admits p fs)
    (hg : ∀ f ∈ fs, f.groupToken? = none) : Reads 0 (us ++ vs) (closeAll e fs) := by
  induction fs generalizing us vs e p with
  | nil =>
    cases hs
    exact he.mono (Nat.zero_le _)
  | cons f fs ih =>
    obtain ⟨q, us', ws, -, hs', hr, ha', heq⟩ := hs.fill he ha (hg f (by simp))
    rw [heq]
    exact ih hs' hr ha' (fun f' hf' => hg f' (by simp [hf']))

/-- What a builder that has accepted tokens looks like. A complete operand is an atom. -/
def Accepted (b : ExprBuilder) (ts : List Token) : Prop :=
  match b.focus with
  | none => Spine b.spine ts
  | some e => ∃ us vs, ts = us ++ vs ∧ Spine b.spine us ∧ ∀ p, Reads p vs e

theorem add_closeGroup {fs fs' : List ExprFrame} {e g : Expr} (t : Token) (failed : Bool)
    (hc : closeTo e fs = some (g, fs')) :
    (add ⟨fs, some e, failed⟩ .closeGroup t).value.2 = ⟨fs', some g, failed⟩ := by
  unfold add
  dsimp only
  rw [hc]
  rfl

theorem add_closeGroup_unbalanced {fs : List ExprFrame} {e : Expr} (t : Token) (failed : Bool)
    (hc : closeTo e fs = none) : (add ⟨fs, some e, failed⟩ .closeGroup t).value.2.failed = true := by
  unfold add
  dsimp only
  rw [hc]
  rfl

theorem accepted_add_expecting {fs : List ExprFrame} {failed : Bool} {us : List Token} {t : Token}
    {item : ExprItem} (hs : Spine fs us) (hi : item? t true = some item)
    (hf : (add ⟨fs, none, failed⟩ item t).value.2.failed = false) :
    Accepted (add ⟨fs, none, failed⟩ item t).value.2 (us ++ [t]) := by
  simp only [item?, if_true] at hi
  split at hi
  · next hk =>
    obtain ⟨v, hv, rfl⟩ := Option.map_eq_some_iff.mp hi
    obtain ⟨n, hn, hlt, rfl⟩ := Literal.integer?_eq_some_iff.mp hv
    exact ⟨us, [t], rfl, hs, fun _ => .integer hk hn hlt⟩
  · next hk =>
    cases hi
    exact ⟨us, [t], rfl, hs, fun _ => .char hk⟩
  · next hk =>
    cases hi
    exact ⟨us, [t], rfl, hs, fun _ => .symbol hk⟩
  · next hk =>
    cases hi
    exact Spine.group hk hs
  · cases hi
    cases hf
  · next hk =>
    obtain ⟨op, hop, rfl⟩ := Option.map_eq_some_iff.mp hi
    exact Spine.unary hk (UnaryOperator.ofSymbol?_eq_some_iff.mp hop) hs
  · cases hi

theorem accepted_add_closeGroup {fs : List ExprFrame} {failed : Bool} {us vs : List Token}
    {t : Token} {e : Expr} (hs : Spine fs us) (he : ∀ p, Reads p vs e) (hk : t.kind = .rparen)
    (hf : (add ⟨fs, some e, failed⟩ .closeGroup t).value.2.failed = false) :
    Accepted (add ⟨fs, some e, failed⟩ .closeGroup t).value.2 (us ++ vs ++ [t]) := by
  cases hc : closeTo e fs with
  | none =>
    rw [add_closeGroup_unbalanced t failed hc] at hf
    cases hf
  | some r =>
    obtain ⟨us', u, ws, i, hs', hu, hr, hg, heq⟩ :=
      reads_closeTo hs (he _) (admits_unaryLevel fs) hc
    rw [add_closeGroup t failed hc, heq, hg]
    exact ⟨us', u :: (ws ++ [t]), by simp, hs', fun _ => .group hu hk hr⟩

theorem accepted_add_binary {fs : List ExprFrame} {failed : Bool} {us vs : List Token} {t : Token}
    {e : Expr} {op : BinaryOperator} (hs : Spine fs us) (he : ∀ p, Reads p vs e)
    (hk : t.kind = .operator) (ht : t.text = op.symbol) :
    Accepted (add ⟨fs, some e, failed⟩ (.operator (.binary op)) t).value.2 (us ++ vs ++ [t]) := by
  obtain ⟨us', ls, hs', hr, ha, heq⟩ :=
    reads_climb hs (he _) (admits_unaryLevel fs) (Nat.le_of_lt (level_lt_unaryLevel op))
  rw [← precedence_eq_level] at hs' hr ha
  rw [heq]
  exact Spine.binary hk ht hr ha hs'

theorem accepted_add {b : ExprBuilder} {us : List Token} {t : Token} {item : ExprItem}
    (hb : Accepted b us) (hi : item? t b.expecting = some item)
    (hf : (b.add item t).value.2.failed = false) : Accepted (b.add item t).value.2 (us ++ [t]) := by
  obtain ⟨fs, focus, failed⟩ := b
  cases focus with
  | none => exact accepted_add_expecting hb hi hf
  | some e =>
    obtain ⟨us, vs, rfl, hs, he⟩ : ∃ ws vs, us = ws ++ vs ∧ Spine fs ws ∧ ∀ p, Reads p vs e := hb
    replace hi : item? t false = some item := hi
    simp only [item?, Bool.false_eq_true, if_false] at hi
    -- Behind an operand, only a closing parenthesis or a binary operator is not refused.
    split at hi
    · obtain ⟨v, -, rfl⟩ := Option.map_eq_some_iff.mp hi
      cases hf
    · cases hi
      cases hf
    · cases hi
      cases hf
    · cases hi
      cases hf
    · next hk =>
      cases hi
      exact accepted_add_closeGroup hs he hk hf
    · next hk =>
      obtain ⟨op, hop, rfl⟩ := Option.map_eq_some_iff.mp hi
      exact accepted_add_binary hs he hk (BinaryOperator.ofSymbol?_eq_some_iff.mp hop)
    · cases hi

theorem failed_add (b : ExprBuilder) (item : ExprItem) (t : Token) (hb : b.failed = true) :
    (b.add item t).value.2.failed = true := by
  obtain ⟨fs, focus, failed⟩ := b
  replace hb : failed = true := hb
  subst hb
  cases focus with
  | none =>
    cases item with
    | operator op => cases op <;> rfl
    | _ => rfl
  | some e =>
    cases item with
    | operator op => cases op <;> rfl
    | closeGroup =>
      cases hc : closeTo e fs with
      | none => exact add_closeGroup_unbalanced t true hc
      | some r => rw [add_closeGroup t true hc]
    | _ => rfl

theorem failed_addToken (b : ExprBuilder) (t : Token) (hb : b.failed = true) :
    (addToken b t).value.failed = true := by
  unfold addToken
  split
  · exact failed_add b _ t hb
  · rfl

theorem failed_addTokens (b : ExprBuilder) (ts : List Token) (hb : b.failed = true) :
    (addTokens b ts).value.failed = true := by
  induction ts generalizing b with
  | nil => exact hb
  | cons t ts ih => exact ih _ (failed_addToken b t hb)

theorem accepted_addToken {b : ExprBuilder} {us : List Token} {t : Token} (hb : Accepted b us)
    (hf : (addToken b t).value.failed = false) : Accepted (addToken b t).value (us ++ [t]) := by
  unfold addToken at hf ⊢
  split at hf
  · next hi => exact accepted_add hb hi hf
  · cases hf

theorem accepted_addTokens {b : ExprBuilder} {us ts : List Token} (hb : Accepted b us)
    (hf : (addTokens b ts).value.failed = false) :
    Accepted (addTokens b ts).value (us ++ ts) := by
  induction ts generalizing b us with
  | nil => simpa [addTokens] using hb
  | cons t ts ih =>
    have hstep : (addToken b t).value.failed = false := by
      cases h : (addToken b t).value.failed with
      | false => rfl
      | true => exact absurd hf (by simp [addTokens, failed_addTokens _ ts h])
    have hacc := ih (accepted_addToken hb hstep) hf
    simpa [addTokens] using hacc

theorem addTokens_append (b : ExprBuilder) (ts us : List Token) :
    (addTokens b (ts ++ us)).value = (addTokens (addTokens b ts).value us).value := by
  induction ts generalizing b with
  | nil => rfl
  | cons t ts ih => exact ih _

theorem addToken_of_item (b : ExprBuilder) {t : Token} {item : ExprItem}
    (hi : item? t b.expecting = some item) : (addToken b t).value = (b.add item t).value.2 := by
  unfold addToken
  rw [hi]
  rfl

section Steps

variable {fs : List ExprFrame} {t : Token} {e : Expr}

theorem addToken_immediate {n : Nat} (hk : t.kind = .immediate)
    (hn : Literal.denoted? t.text = some n) (hlt : n < 0x10000000000000000) :
    (addToken ⟨fs, none, false⟩ t).value = ⟨fs, some (.integer (Int64.ofNat n) t), false⟩ := by
  have hv := Literal.integer?_eq_some_iff.mpr ⟨n, hn, hlt, rfl⟩
  have hi : item? t true = some (.integer (Int64.ofNat n)) := by simp [item?, hk, hv]
  exact addToken_of_item ⟨fs, none, false⟩ hi

theorem addToken_char (hk : t.kind = .char) :
    (addToken ⟨fs, none, false⟩ t).value =
      ⟨fs, some (.integer (Literal.charCode t.text) t), false⟩ := by
  have hi : item? t true = some (.integer (Literal.charCode t.text)) := by
    simp [item?, hk, Literal.charCode]
  exact addToken_of_item ⟨fs, none, false⟩ hi

theorem addToken_identifier (hk : t.kind = .identifier) :
    (addToken ⟨fs, none, false⟩ t).value = ⟨fs, some (.symbol t.text t), false⟩ := by
  have hi : item? t true = some (.symbol t.text) := by simp [item?, hk]
  exact addToken_of_item ⟨fs, none, false⟩ hi

theorem addToken_lparen (hk : t.kind = .lparen) :
    (addToken ⟨fs, none, false⟩ t).value = ⟨.group t :: fs, none, false⟩ := by
  have hi : item? t true = some .openGroup := by simp [item?, hk]
  exact addToken_of_item ⟨fs, none, false⟩ hi

theorem addToken_unary {op : UnaryOperator} (hk : t.kind = .operator) (ht : t.text = op.symbol) :
    (addToken ⟨fs, none, false⟩ t).value = ⟨.unary op t :: fs, none, false⟩ := by
  have hop := UnaryOperator.ofSymbol?_eq_some_iff.mpr ht
  have hi : item? t true = some (.operator (.unary op)) := by simp [item?, hk, hop]
  exact addToken_of_item ⟨fs, none, false⟩ hi

theorem addToken_binary {op : BinaryOperator} (hk : t.kind = .operator) (ht : t.text = op.symbol) :
    (addToken ⟨fs, some e, false⟩ t).value =
      ⟨.binary op t (climb (level op + 1) e fs).1 :: (climb (level op + 1) e fs).2, none,
        false⟩ := by
  have hop := BinaryOperator.ofSymbol?_eq_some_iff.mpr ht
  have hi : item? t false = some (.operator (.binary op)) := by simp [item?, hk, hop]
  rw [← precedence_eq_level]
  exact addToken_of_item ⟨fs, some e, false⟩ hi

theorem addToken_rparen {g : Expr} {fs' : List ExprFrame} (hk : t.kind = .rparen)
    (hc : closeTo e fs = some (g, fs')) :
    (addToken ⟨fs, some e, false⟩ t).value = ⟨fs', some g, false⟩ := by
  have hi : item? t false = some .closeGroup := by simp [item?, hk]
  exact (addToken_of_item ⟨fs, some e, false⟩ hi).trans (add_closeGroup t false hc)

end Steps

theorem closeAll_append (e : Expr) (fs gs : List ExprFrame) :
    closeAll e (fs ++ gs) = closeAll (closeAll e fs) gs := by
  induction fs generalizing e with
  | nil => rfl
  | cons f fs ih => exact ih _

theorem closeTo_append_group {e : Expr} {fs gs : List ExprFrame} {t : Token}
    (h : ∀ f ∈ fs, f.groupToken? = none) :
    closeTo e (fs ++ .group t :: gs) = some (.group t (closeAll e fs), gs) := by
  induction fs generalizing e with
  | nil => rfl
  | cons f fs ih =>
    have hf := h f (by simp)
    have hrest := ih (e := f.fill e) (fun g hg => h g (by simp [hg]))
    cases f with
    | group => cases hf
    | unary => exact hrest
    | binary => exact hrest

theorem climb_append {k : Nat} {e : Expr} {fs gs : List ExprFrame}
    (h : ∀ f ∈ fs, ∃ q, f.precedence? = some (q + 1) ∧ k ≤ q) :
    climb (k + 1) e (fs ++ gs) = climb (k + 1) (closeAll e fs) gs := by
  induction fs generalizing e with
  | nil => rfl
  | cons f fs ih =>
    obtain ⟨q, hq, hk⟩ := h f (by simp)
    rw [List.cons_append, climb, hq]
    simp only [show k + 1 ≤ q + 1 by omega, if_true]
    exact ih (fun g hg => h g (by simp [hg]))

theorem climb_eq_self {k : Nat} {e : Expr} {fs : List ExprFrame} (ha : Admits k fs)
    (hk : k < unaryLevel) : climb (k + 1) e fs = (e, fs) := by
  match fs, ha with
  | [], _ => rfl
  | .group _ :: _, _ => rfl
  | .unary op t :: fs, ha => exact absurd (Nat.lt_of_lt_of_le hk ha) (Nat.lt_irrefl _)
  | .binary op t l :: fs, ha =>
    have hlt : level op < k := ha
    simp [climb, ExprFrame.precedence?, precedence_eq_level, Nat.not_le.mpr hlt]

-- The frames that an operand leaves open on its right are those of its own operators, and closing
-- them gives back the operand.
theorem addTokens_of_reads {p : Nat} {ts : List Token} {e : Expr} (h : Reads p ts e)
    (fs : List ExprFrame) (ha : Admits p fs) :
    ∃ f gs, (addTokens ⟨fs, none, false⟩ ts).value = ⟨gs ++ fs, some f, false⟩ ∧
      (∀ g ∈ gs, ∃ q, g.precedence? = some (q + 1) ∧ p ≤ q) ∧ closeAll f gs = e := by
  -- An operand may leave frames of its own open, but none that is looser than its level.
  induction h generalizing fs with
  | integer hk hn hlt => exact ⟨_, [], addToken_immediate hk hn hlt, by simp, rfl⟩
  | char hk => exact ⟨_, [], addToken_char hk, by simp, rfl⟩
  | symbol hk => exact ⟨_, [], addToken_identifier hk, by simp, rfl⟩
  | @group p t u ts e ht hu _ ih =>
    obtain ⟨f, gs, hrun, hgs, rfl⟩ := ih (.group t :: fs) trivial
    have hng : ∀ g ∈ gs, g.groupToken? = none := by
      intro g hg
      obtain ⟨q, hq, -⟩ := hgs g hg
      exact groupToken?_eq_none hq
    refine ⟨.group t (closeAll f gs), [], ?_, by simp, rfl⟩
    change (addTokens (addToken _ t).value (ts ++ [u])).value = _
    rw [addToken_lparen ht, addTokens_append, hrun]
    exact addToken_rparen hu (closeTo_append_group hng)
  | @unary p t ts op e hp hk ht _ ih =>
    obtain ⟨f, gs, hrun, hgs, rfl⟩ := ih (.unary op t :: fs) (Nat.le_refl _)
    refine ⟨f, gs ++ [.unary op t], ?_, ?_, closeAll_append _ _ _⟩
    · change (addTokens (addToken _ t).value ts).value = _
      rw [addToken_unary hk ht, hrun]
      simp
    · intro g hg
      rcases List.mem_append.mp hg with hg | hg
      · obtain ⟨q, hq, hle⟩ := hgs g hg
        exact ⟨q, hq, Nat.le_trans hp hle⟩
      · cases List.mem_singleton.mp hg
        exact ⟨unaryLevel, rfl, hp⟩
  | @binary p t ls rs op l r hp hk ht _ _ ihl ihr =>
    have hlt := level_lt_unaryLevel op
    obtain ⟨f₁, gs₁, hrun₁, hgs₁, rfl⟩ := ihl fs (ha.mono hp)
    -- The operator closes the frames of its left operand and no others.
    have hclimb : climb (level op + 1) f₁ (gs₁ ++ fs) = (closeAll f₁ gs₁, fs) := by
      rw [climb_append hgs₁]
      exact climb_eq_self (ha.mono hp) hlt
    obtain ⟨f₂, gs₂, hrun₂, hgs₂, rfl⟩ :=
      ihr (.binary op t (closeAll f₁ gs₁) :: fs) (Nat.lt_succ_self _)
    refine ⟨f₂, gs₂ ++ [.binary op t (closeAll f₁ gs₁)], ?_, ?_, closeAll_append _ _ _⟩
    · rw [addTokens_append, hrun₁]
      change (addTokens (addToken _ t).value rs).value = _
      rw [addToken_binary hk ht, hclimb, hrun₂]
      simp
    · intro g hg
      rcases List.mem_append.mp hg with hg | hg
      · obtain ⟨q, hq, hle⟩ := hgs₂ g hg
        exact ⟨q, hq, by omega⟩
      · cases List.mem_singleton.mp hg
        exact ⟨level op, by rw [ExprFrame.precedence?, precedence_eq_level], hp⟩

def Barrier (fs : List ExprFrame) : Prop := ∀ k e, climb k e fs = (e, fs)

theorem climb_append_barrier {fs : List ExprFrame} (hb : Barrier fs) (k : Nat) (e : Expr)
    {gs : List ExprFrame} (hgs : ∀ g ∈ gs, g.groupToken? = none) :
    ∃ hs, (climb k e (gs ++ fs)).2 = hs ++ fs ∧ ∀ h ∈ hs, h.groupToken? = none := by
  induction gs generalizing e with
  | nil => exact ⟨[], by rw [List.nil_append, hb], by simp⟩
  | cons g gs ih =>
    cases hp : g.precedence? with
    | none => exact ⟨g :: gs, by rw [List.cons_append, climb, hp], hgs⟩
    | some q =>
      rw [List.cons_append, climb, hp]
      by_cases hle : k ≤ q
      · simp only [hle, if_true]
        exact ih _ (fun h hh => hgs h (by simp [hh]))
      · simp only [hle, if_false]
        exact ⟨g :: gs, rfl, hgs⟩

theorem addTokens_of_derives {ph : Phrase} {ts : List Token} (h : Derives ph ts)
    (fs : List ExprFrame) (hb : ph = .expression → Barrier fs) :
    ∃ f gs, (addTokens ⟨fs, none, false⟩ ts).value = ⟨gs ++ fs, some f, false⟩ ∧
      ∀ g ∈ gs, g.groupToken? = none := by
  induction h generalizing fs with
  | integer hk hn hlt => exact ⟨_, [], addToken_immediate hk hn hlt, by simp⟩
  | char hk => exact ⟨_, [], addToken_char hk, by simp⟩
  | symbol hk => exact ⟨_, [], addToken_identifier hk, by simp⟩
  | @group t u ts ht hu _ ih =>
    obtain ⟨f, gs, hrun, hgs⟩ := ih (.group t :: fs) (fun _ _ _ => rfl)
    refine ⟨.group t (closeAll f gs), [], ?_, by simp⟩
    change (addTokens (addToken _ t).value (ts ++ [u])).value = _
    rw [addToken_lparen ht, addTokens_append, hrun]
    exact addToken_rparen hu (closeTo_append_group hgs)
  | ofAtom _ ih => exact ih fs (by simp)
  | ofOperand _ ih => exact ih fs (by simp)
  | @unary t ts op hk ht _ ih =>
    obtain ⟨f, gs, hrun, hgs⟩ := ih (.unary op t :: fs) (by simp)
    refine ⟨f, gs ++ [.unary op t], ?_, ?_⟩
    · change (addTokens (addToken _ t).value ts).value = _
      rw [addToken_unary hk ht, hrun]
      simp
    · simpa [ExprFrame.groupToken?, or_imp, forall_and] using hgs
  | @binary t ls rs op hk ht _ _ ihl ihr =>
    obtain ⟨f₁, gs₁, hrun₁, hgs₁⟩ := ihl fs hb
    -- What the operator leaves open is not a group, so that a later parenthesis still finds its
    -- own.
    obtain ⟨hs, hclimb, hhs⟩ := climb_append_barrier (hb rfl) (level op + 1) f₁ hgs₁
    let frame := ExprFrame.binary op t (climb (level op + 1) f₁ (gs₁ ++ fs)).1
    obtain ⟨f₂, gs₂, hrun₂, hgs₂⟩ := ihr (frame :: (hs ++ fs)) (by simp)
    refine ⟨f₂, gs₂ ++ frame :: hs, ?_, ?_⟩
    · rw [addTokens_append, hrun₁]
      change (addTokens (addToken _ t).value rs).value = _
      rw [addToken_binary hk ht, hclimb, hrun₂]
      simp
    · intro g hg
      rcases List.mem_append.mp hg with hg | hg
      · exact hgs₂ g hg
      · rcases List.mem_cons.mp hg with rfl | hg
        · rfl
        · exact hhs g hg

theorem build_eq_some_iff {b : ExprBuilder} {place : Source.Location} {e : Expr} :
    (b.build place).value = some e ↔
      b.failed = false ∧ ∃ f, b.focus = some f ∧ (∀ g ∈ b.spine, g.groupToken? = none) ∧
        closeAll f b.spine = e := by
  unfold ExprBuilder.build
  cases hf : b.failed with
  | true => simp
  | false =>
    cases hfo : b.focus with
    | none =>
      simp only [Bool.false_eq_true, if_false, Reported.value_bind, Reported.value_pure, true_and,
        reduceCtorEq, false_and, exists_false]
    | some f =>
      have hnone : (b.spine.filterMap ExprFrame.groupToken?).getLast? = none ↔
          ∀ g ∈ b.spine, g.groupToken? = none := by
        simp
      cases hl : (b.spine.filterMap ExprFrame.groupToken?).getLast? with
      | none =>
        have hg := hnone.mp hl
        simp only [Bool.false_eq_true, if_false, Reported.value_pure, Option.some.injEq, true_and,
          exists_eq_left', and_iff_right hg]
      | some t =>
        have hg : ¬ ∀ g ∈ b.spine, g.groupToken? = none := fun h => by simp [hnone.mpr h] at hl
        simp only [Bool.false_eq_true, if_false, Reported.value_bind, Reported.value_pure, true_and,
          Option.some.injEq, exists_eq_left', hg, false_and, reduceCtorEq]

theorem reads_of_parse {ts : List Token} {place : Source.Location} {e : Expr}
    (h : (parse ts place).value = some e) : Reads 0 ts e := by
  obtain ⟨hf, f, hfo, hg, rfl⟩ := build_eq_some_iff.mp h
  have hacc : Accepted (addTokens .empty ts).value ([] ++ ts) :=
    accepted_addTokens Spine.nil hf
  rw [Accepted, hfo] at hacc
  obtain ⟨us, vs, heq, hs, he⟩ := hacc
  have hr := reads_closeAll hs (he _) (admits_unaryLevel _) hg
  rwa [← heq] at hr

theorem parse_of_reads {ts : List Token} {e : Expr} (h : Reads 0 ts e)
    (place : Source.Location) : (parse ts place).value = some e := by
  obtain ⟨f, gs, hrun, hgs, rfl⟩ := addTokens_of_reads h [] trivial
  refine build_eq_some_iff.mpr ?_
  rw [ExprBuilder.empty, hrun, List.append_nil]
  refine ⟨rfl, f, rfl, fun g hg => ?_, rfl⟩
  obtain ⟨q, hq, -⟩ := hgs g hg
  exact groupToken?_eq_none hq

theorem isSome_parse_of_derives {ts : List Token} (h : Derives .expression ts)
    (place : Source.Location) : (parse ts place).value.isSome := by
  obtain ⟨f, gs, hrun, hgs⟩ := addTokens_of_derives h [] (fun _ _ _ => rfl)
  have hp : (parse ts place).value = some (closeAll f gs) := by
    refine build_eq_some_iff.mpr ?_
    rw [ExprBuilder.empty, hrun, List.append_nil]
    exact ⟨rfl, f, rfl, hgs, rfl⟩
  rw [hp]
  rfl

/-- Parsing accepts what the grammar derives, and gives the tree of the standard reading, whose
leaves and operators are the tokens in order. -/
theorem parse_eq_standard_reading (ts : List Token) (place : Source.Location) :
    ((parse ts place).value.isSome ↔ Derives .expression ts) ∧
    ∀ e, (parse ts place).value = some e ↔
      Reads 0 ts e ∧ e.inorder = ts.filter (!isParenthesis ·) := by
  refine ⟨⟨fun h => ?_, fun h => isSome_parse_of_derives h place⟩, fun e => ⟨fun h => ?_, ?_⟩⟩
  · obtain ⟨e, he⟩ := Option.isSome_iff_exists.mp h
    exact (Derives.ofReads (reads_of_parse he)).1
  · exact ⟨reads_of_parse h, (reads_of_parse h).inorder_eq⟩
  · rintro ⟨h, -⟩
    exact parse_of_reads h place

example :
    let line := (tokenizeLine "t" 1 ".word - x * (y | z) - 2 << 3 + 'x'").value
    (parse line.significant.tail .none).value.map render =
      some "((((-x) * (y | z)) - 2) << (3 + 120))" := by
  decide +kernel

end Expr

end MipsToolchain
