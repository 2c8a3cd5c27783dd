import MipsToolchain.Proofs.Expr.Evaluation

namespace MipsToolchain

open Guarded

namespace EvalContext

def settling (ctx : EvalContext) (n : Name) (a : Address) : EvalContext :=
  { ctx with resolve := fun n' => if n' = n then some a else ctx.resolve n' }

def deferring (ctx : EvalContext) (n : Name) : EvalContext :=
  { ctx with resolve := fun n' => if n' = n then none else ctx.resolve n' }

end EvalContext

namespace ExprValue

def settled (a : Address) (k : Int64) : ExprValue := ⟨a.add k, none⟩

def deferred (loc : Address) (n : Name) (k : Int64) : ExprValue :=
  ⟨.absolute k, some ⟨loc, n, .absolute32, 0⟩⟩

/-- What an expression is where a symbol is known, and where it is not. -/
inductive Defers (loc : Address) (n : Name) (a : Address) : ExprValue → ExprValue → Prop
  | same {v : ExprValue} : (∀ r, v.reference = some r → r.symbol ≠ n) → Defers loc n a v v
  | distance (k : Int64) : Defers loc n a (settled a k) (deferred loc n k)

namespace Defers

variable {loc a : Address} {n : Name} {v v' : ExprValue}

theorem constant (k : Int64) : Defers loc n a (.constant k) (.constant k) :=
  .same fun _ h => by cases h

theorem add (h : Defers loc n a v v') (d : Int64) : Defers loc n a (v.add d) (v'.add d) := by
  cases h with
  | same h => exact .same h
  | distance k =>
    have hs : (settled a k).add d = settled a (k + d) := by
      simp only [settled, ExprValue.add, Address.add, Int64.add_assoc]
    have hd : (deferred loc n k).add d = deferred loc n (k + d) := rfl
    rw [hs, hd]
    exact .distance _

theorem isRelocatable (h : Defers loc n a v v') (ha : a.isRelocatable) :
    v'.isRelocatable = v.isRelocatable := by
  cases h with
  | same => rfl
  | distance k =>
    have hs : (settled a k).isRelocatable = true := by
      rw [ExprValue.isRelocatable, settled, Address.isRelocatable_add, ha]
      rfl
    rw [hs]
    rfl

theorem eq_of_constant (h : Defers loc n a v v') (ha : a.isRelocatable)
    (hv : v.isRelocatable = false) : v' = v := by
  cases h with
  | same => rfl
  | distance k =>
    rw [ExprValue.isRelocatable, settled, Address.isRelocatable_add, ha] at hv
    cases hv

end Defers

end ExprValue

/-- Two computations that come to related results and report the same. -/
def Guarded.Parallel {α β : Type} (R : α → β → Prop) (x : Guarded α) (y : Guarded β) : Prop :=
  ∃ a b ds, x = .ok ⟨a, ds⟩ ∧ y = .ok ⟨b, ds⟩ ∧ R a b

namespace Guarded.Parallel

variable {α β γ δ : Type} {R : α → β → Prop} {Q : γ → δ → Prop}

theorem pure {a : α} {b : β} (h : R a b) :
    Parallel R (Pure.pure a : Guarded α) (Pure.pure b : Guarded β) := ⟨a, b, [], rfl, rfl, h⟩

theorem refl {x : Guarded α} {P : α → α → Prop} (hx : ∃ r, x = .ok r ∧ P r.value r.value) :
    Parallel P x x := by
  obtain ⟨r, hr, hP⟩ := hx
  exact ⟨r.value, r.value, r.diagnostics, hr, hr, hP⟩

theorem bind {x : Guarded α} {y : Guarded β} {f : α → Guarded γ} {g : β → Guarded δ}
    (h : Parallel R x y) (hf : ∀ a b, R a b → Parallel Q (f a) (g b)) :
    Parallel Q (x >>= f) (y >>= g) := by
  obtain ⟨a, b, ds, rfl, rfl, hab⟩ := h
  obtain ⟨c, d, es, hc, hd, hcd⟩ := hf a b hab
  exact ⟨c, d, ds ++ es, bind_eq_ok.mpr ⟨_, _, rfl, hc, rfl⟩, bind_eq_ok.mpr ⟨_, _, rfl, hd, rfl⟩, hcd⟩

theorem bind_eq {x : Guarded α} {y : Guarded β} {f : α → Guarded γ} {g : β → Guarded γ}
    (h : Parallel R x y) (hf : ∀ a b, R a b → f a = g b) : x >>= f = y >>= g := by
  obtain ⟨a, b, ds, rfl, rfl, hab⟩ := h
  simp only [Bind.bind, hf a b hab]

end Guarded.Parallel

namespace Expr

open ExprValue

section Operators

variable {loc a : Address} {n : Name} {x x' y y' : ExprValue} {t : Token}

theorem parallel_refuse (p : Problem) (t : Token) (args : List MessageArg) :
    Parallel (Option.Rel (Defers loc n a)) (refuse p t args) (refuse p t args) :=
  .refl ⟨_, rfl, .none⟩

theorem parallel_evalUnary (op : UnaryOperator) (ha : a.isRelocatable)
    (hx : Defers loc n a x x') :
    Parallel (Option.Rel (Defers loc n a)) (evalUnary op t x) (evalUnary op t x') := by
  by_cases hop : op = .plus
  · subst hop
    exact .pure (.some hx)
  · rw [evalUnary_of_ne hop, evalUnary_of_ne hop, hx.isRelocatable ha]
    split
    · exact parallel_refuse _ _ _
    · next hc =>
      rw [hx.eq_of_constant ha (Bool.not_eq_true _ ▸ hc)]
      exact .pure (.some (.constant _))

theorem parallel_evalBinary (op : BinaryOperator) (ha : a.isRelocatable)
    (hx : Defers loc n a x x') (hy : Defers loc n a y y') :
    Parallel (Option.Rel (Defers loc n a)) (evalBinary op t x y) (evalBinary op t x' y') := by
  have hrx := hx.isRelocatable ha
  have hry := hy.isRelocatable ha
  -- Only sums and differences keep a relocatable operand. All other operators need two constants,
  -- which are the same on both sides.
  by_cases hadd : op = .add
  · subst hadd
    simp only [evalBinary, hrx, hry]
    split
    · exact parallel_refuse _ _ _
    · next hboth =>
      split
      · next hr =>
        have hl : x.isRelocatable = false := by simpa [hr] using hboth
        rw [hx.eq_of_constant ha hl]
        exact .pure (.some (hy.add _))
      · next hr =>
        rw [hy.eq_of_constant ha (Bool.not_eq_true _ ▸ hr)]
        exact .pure (.some (hx.add _))
  by_cases hsub : op = .sub
  · subst hsub
    simp only [evalBinary, hrx, hry]
    split
    · exact parallel_refuse _ _ _
    · split
      · exact parallel_refuse _ _ _
      · next hr =>
        rw [hy.eq_of_constant ha (Bool.not_eq_true _ ▸ hr)]
        exact .pure (.some (hx.add _))
  · rw [evalBinary_of_ne hadd hsub, evalBinary_of_ne hadd hsub, hrx, hry]
    split
    · exact parallel_refuse _ _ _
    · next hc =>
      rw [Bool.not_eq_true, Bool.or_eq_false_iff] at hc
      rw [hx.eq_of_constant ha hc.1, hy.eq_of_constant ha hc.2]
      split
      · exact parallel_refuse _ _ _
      · next hz =>
        obtain ⟨k, hk⟩ := op.apply_eq_ok x.number y.number fun hd hy => by simp [hd, hy] at hz
        exact .refl ⟨⟨some (.constant k), []⟩,
          bind_eq_ok.mpr ⟨_, _, liftExcept_eq_ok.mpr ⟨k, hk, rfl⟩, rfl, rfl⟩, .some (.constant k)⟩

end Operators

/-- Leaving a symbol open changes the value of an expression by no more than that the distance from
the symbol takes the place of the distance from its address. -/
theorem parallel_eval (ctx : EvalContext) (n : Name) {a : Address} (ha : a.isRelocatable) (e : Expr) :
    Parallel (Option.Rel (Defers ctx.location n a)) (e.eval (ctx.settling n a))
      (e.eval (ctx.deferring n)) := by
  induction e with
  | integer v t => exact .pure (.some (.constant v))
  | symbol name t =>
    simp only [eval, EvalContext.settling, EvalContext.deferring]
    -- The symbol in question is the only one that the two surroundings disagree about.
    by_cases hn : name = n
    · subst hn
      rw [if_pos rfl, if_pos rfl]
      have hzero : settled a 0 = ⟨a, none⟩ := by
        simp only [settled, Address.add, Int64.add_zero]
      refine .pure (.some ?_)
      rw [← hzero]
      exact .distance 0
    · rw [if_neg hn, if_neg hn]
      cases ctx.resolve name with
      | some b => exact .pure (.some (.same fun _ h => by cases h))
      | none => exact .pure (.some (.same fun _ h => by cases h; exact hn))
  | group t e ih => exact ih
  | unary op t e ih =>
    refine ih.bind fun x x' hx => ?_
    cases hx with
    | none => exact .pure .none
    | some hx => exact parallel_evalUnary op ha hx
  | binary op t l r ihl ihr =>
    refine ihl.bind fun x x' hx => ihr.bind fun y y' hy => ?_
    cases hx with
    | none => exact .pure .none
    | some hx =>
      cases hy with
      | none => exact .pure .none
      | some hy => exact parallel_evalBinary op ha hx hy

/-- An expression that stands for a symbol plus a constant. -/
def Offsets (ctx : EvalContext) (n : Name) (k : Int64) (e : Expr) : Prop :=
  (e.eval (ctx.deferring n)).Gives (some (deferred ctx.location n k))

theorem Offsets.eval {ctx : EvalContext} {n : Name} {k : Int64} {e : Expr} (h : e.Offsets ctx n k)
    {a : Address} (ha : a.isRelocatable) :
    ∃ ds, e.eval (ctx.settling n a) = .ok ⟨some (settled a k), ds⟩ ∧
      e.eval (ctx.deferring n) = .ok ⟨some (deferred ctx.location n k), ds⟩ := by
  obtain ⟨ds', hgives⟩ := h
  obtain ⟨x, y, ds, hx, hy, hrel⟩ := parallel_eval ctx n ha e
  rw [hgives] at hy
  cases hy
  obtain ⟨v, hv, rfl⟩ : ∃ v, Defers ctx.location n a v (deferred ctx.location n k) ∧ x = some v := by
    cases hrel with
    | some h => exact ⟨_, h, rfl⟩
  refine ⟨_, ?_, hgives⟩
  rw [hx]
  generalize hw : deferred ctx.location n k = w at hv
  cases hv with
  | same hne =>
    subst hw
    exact absurd rfl (hne _ rfl)
  | distance k' =>
    have hk : k = k' := congrArg ExprValue.number hw
    rw [hk]

end Expr

end MipsToolchain
