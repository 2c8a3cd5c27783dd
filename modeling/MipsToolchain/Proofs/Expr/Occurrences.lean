import MipsToolchain.Proofs.Expr.Deferral
import MipsToolchain.Proofs.Expr.Names

namespace MipsToolchain

open Guarded

namespace EvalContext

variable {ctx : EvalContext} {n : Name}

theorem settling_eq_self {a : Address} (h : ctx.resolve n = some a) : ctx.settling n a = ctx := by
  have hresolve : (fun n' => if n' = n then some a else ctx.resolve n') = ctx.resolve := by
    funext n'
    split
    · next hn => rw [hn, h]
    · rfl
  rw [settling, hresolve]

theorem deferring_eq_self (h : ctx.resolve n = none) : ctx.deferring n = ctx := by
  have hresolve : (fun n' => if n' = n then none else ctx.resolve n') = ctx.resolve := by
    funext n'
    split
    · next hn => rw [hn, h]
    · rfl
  rw [deferring, hresolve]

end EvalContext

namespace Expr

open ExprValue

/-- Whether a result, if there is one, is some distance from an open symbol. -/
def Distance (loc : Address) (n : Name) (o : Option ExprValue) : Prop :=
  ∀ v, o = some v → ∃ k, v = deferred loc n k

section Operators

variable {loc : Address} {n : Name} {x y : ExprValue} {t : Token}

theorem isRelocatable_deferred (k : Int64) : (deferred loc n k).isRelocatable = true := rfl

theorem distance_none : Distance loc n none := nofun

theorem distance_add (k d : Int64) : Distance loc n (some ((deferred loc n k).add d)) := by
  intro v hv
  cases hv
  exact ⟨k + d, rfl⟩

theorem distance_evalUnary (op : UnaryOperator) (k : Int64) :
    (evalUnary op t (deferred loc n k)).Ensures (Distance loc n) := by
  by_cases hop : op = .plus
  · subst hop
    exact .pure fun v hv => ⟨k, (Option.some.inj hv).symm⟩
  · rw [evalUnary_of_ne hop, if_pos (isRelocatable_deferred k)]
    exact refuse_ensures distance_none _ _

/-- An operator refuses a relocatable operand, or keeps it at another distance. -/
theorem distance_evalBinary (op : BinaryOperator)
    (h : (∃ k, x = deferred loc n k) ∨ ∃ k, y = deferred loc n k) :
    (evalBinary op t x y).Ensures (Distance loc n) := by
  have hrefuse : ∀ problem args, (refuse problem t args).Ensures (Distance loc n) :=
    refuse_ensures distance_none
  -- A sum keeps the distance on either side, a difference only on the left, and nothing else does.
  by_cases hadd : op = .add
  · subst hadd
    rw [evalBinary]
    rcases h with ⟨k, rfl⟩ | ⟨k, rfl⟩
    · split
      · exact hrefuse _ _
      · next hboth =>
        rw [if_neg fun hy => hboth (by rw [hy]; rfl)]
        exact .pure (distance_add k _)
    · split
      · exact hrefuse _ _
      · rw [if_pos (isRelocatable_deferred k)]
        exact .pure (distance_add k _)
  by_cases hsub : op = .sub
  · subst hsub
    rw [evalBinary]
    split
    · exact hrefuse _ _
    · split
      · exact hrefuse _ _
      · next hy =>
        rcases h with ⟨k, rfl⟩ | ⟨k, rfl⟩
        · exact .pure (distance_add k _)
        · exact absurd rfl hy
  · have hrel : (x.isRelocatable || y.isRelocatable) = true := by
      rcases h with ⟨k, rfl⟩ | ⟨k, rfl⟩
      · rfl
      · exact Bool.or_true _
    rw [evalBinary_of_ne hadd hsub, if_pos hrel]
    exact hrefuse _ _

end Operators

theorem distance_eval (ctx : EvalContext) {n : String} {e : Expr} (h : n ∈ e.names) :
    (e.eval (ctx.deferring n)).Ensures (Distance ctx.location n) := by
  induction e with
  | integer => cases h
  | symbol name t =>
    cases List.mem_singleton.mp h
    rw [eval, EvalContext.deferring]
    dsimp only
    rw [if_pos rfl]
    exact .pure fun v hv => ⟨0, (Option.some.inj hv).symm⟩
  | group t e ih => exact ih h
  | unary op t e ih =>
    refine .andThen (ih h) fun o ho => ?_
    split
    · obtain ⟨k, rfl⟩ := ho _ rfl
      exact distance_evalUnary op k
    · exact .pure distance_none
  | binary op t l r ihl ihr =>
    rcases List.mem_append.mp h with h | h
    · refine .andThen (ihl h) fun o ho => .skip fun o' => ?_
      split
      · exact distance_evalBinary op (.inl (ho _ rfl))
      · exact .pure distance_none
    · refine .skip fun o => .andThen (ihr h) fun o' ho' => ?_
      split
      · exact distance_evalBinary op (.inr (ho' _ rfl))
      · exact .pure distance_none

theorem exists_offsets {ctx : EvalContext} {n : String} {e : Expr} {v : ExprValue} (hn : n ∈ e.names)
    (hv : (e.eval ctx).Gives (some v)) (ha : ∀ a, ctx.resolve n = some a → a.isRelocatable) :
    ∃ k, e.Offsets ctx n k ∧ (ctx.resolve n = none ∧ v = deferred ctx.location n k ∨
      ∃ a, ctx.resolve n = some a ∧ v = settled a k) := by
  cases hr : ctx.resolve n with
  | none =>
    rw [← EvalContext.deferring_eq_self hr] at hv
    have hgives := hv
    obtain ⟨ds, hv⟩ := hv
    obtain ⟨k, rfl⟩ := distance_eval ctx hn _ hv v rfl
    exact ⟨k, hgives, .inl ⟨rfl, rfl⟩⟩
  | some a =>
    obtain ⟨ds, hv⟩ := hv
    rw [← EvalContext.settling_eq_self hr] at hv
    obtain ⟨o, o', ds', hsettling, hdeferring, hrel⟩ := parallel_eval ctx n (ha a hr) e
    rw [hv] at hsettling
    cases hsettling
    obtain ⟨v', rfl⟩ : ∃ v', o' = some v' := by
      cases hrel with
      | some _ => exact ⟨_, rfl⟩
    obtain ⟨k, rfl⟩ := distance_eval ctx hn _ hdeferring v' rfl
    have hoffsets : e.Offsets ctx n k := ⟨_, hdeferring⟩
    obtain ⟨ds'', hsettled, -⟩ := hoffsets.eval (ha a hr)
    rw [hv] at hsettled
    cases hsettled
    exact ⟨k, hoffsets, .inr ⟨a, rfl, rfl⟩⟩

end Expr

end MipsToolchain
