import MipsToolchain.Proofs.Expr.Evaluation
import MipsToolchain.Proofs.Expr.Parsing

namespace MipsToolchain

open Guarded

namespace Expr

def names : Expr → List String
  | integer _ _ => []
  | symbol n _ => [n]
  | unary _ _ e => e.names
  | binary _ _ l r => l.names ++ r.names
  | group _ e => e.names

theorem Reads.names {p : Nat} {ts : List Token} {e : Expr} (h : Reads p ts e) :
    ∀ n ∈ e.names, ∃ t ∈ ts, t.kind = .identifier ∧ t.text = n := by
  induction h with
  | integer | char => simp [Expr.names]
  | @symbol _ t hk =>
    intro n hn
    exact ⟨t, List.mem_singleton_self t, hk, (List.mem_singleton.mp hn).symm⟩
  | group _ _ _ ih =>
    intro n hn
    obtain ⟨t, ht, hname⟩ := ih n hn
    exact ⟨t, List.mem_cons_of_mem _ (List.mem_append_left _ ht), hname⟩
  | unary _ _ _ _ ih =>
    intro n hn
    obtain ⟨t, ht, hname⟩ := ih n hn
    exact ⟨t, List.mem_cons_of_mem _ ht, hname⟩
  | binary _ _ _ _ _ ihl ihr =>
    intro n hn
    rcases List.mem_append.mp hn with hn | hn
    · obtain ⟨t, ht, hname⟩ := ihl n hn
      exact ⟨t, List.mem_append_left _ ht, hname⟩
    · obtain ⟨t, ht, hname⟩ := ihr n hn
      exact ⟨t, List.mem_append_right _ (List.mem_cons_of_mem _ ht), hname⟩

end Expr

/-- Whether a value is made of what its surroundings know and of given names. -/
structure ExprValue.ComesFrom (ctx : EvalContext) (names : List String) (v : ExprValue) : Prop where
  address : v.address.sectionName = .empty ∨
    ∃ n a, ctx.resolve n = some a ∧ a.sectionName = v.address.sectionName
  symbol : ∀ r, v.reference = some r →
    ctx.resolve r.symbol = none ∧ ∃ n ∈ names, r.symbol = RawText.ofString n

namespace ExprValue.ComesFrom

variable {ctx : EvalContext} {names names' : List String} {v : ExprValue}

theorem constant (n : Int64) : (ExprValue.constant n).ComesFrom ctx names :=
  ⟨.inl rfl, fun _ h => by cases h⟩

theorem add (h : v.ComesFrom ctx names) (d : Int64) : (v.add d).ComesFrom ctx names :=
  ⟨h.address, h.symbol⟩

theorem mono (h : v.ComesFrom ctx names) (hn : ∀ n ∈ names, n ∈ names') :
    v.ComesFrom ctx names' := by
  refine ⟨h.address, fun r hr => ?_⟩
  obtain ⟨hunknown, n, hmem, hname⟩ := h.symbol r hr
  exact ⟨hunknown, n, hn n hmem, hname⟩

end ExprValue.ComesFrom

namespace Expr

variable {ctx : EvalContext} {ns : List String} {t : Token} {x y : ExprValue}

theorem refuse_ensures {p : Option ExprValue → Prop} (hp : p none) (problem : Problem)
    (args : List MessageArg) : (refuse problem t args).Ensures p :=
  .skip fun _ => .pure hp

theorem comesFrom_evalUnary (op : UnaryOperator) (hx : x.ComesFrom ctx ns) :
    (evalUnary op t x).Ensures fun o => ∀ v, o = some v → v.ComesFrom ctx ns := by
  by_cases hop : op = .plus
  · subst hop
    exact .pure fun v hv => by cases hv; exact hx
  · rw [evalUnary_of_ne hop]
    split
    · exact refuse_ensures (fun v hv => by cases hv) _ _
    · exact .pure fun v hv => by cases hv; exact .constant _

theorem comesFrom_evalBinary (op : BinaryOperator) (hx : x.ComesFrom ctx ns)
    (hy : y.ComesFrom ctx ns) :
    (evalBinary op t x y).Ensures fun o => ∀ v, o = some v → v.ComesFrom ctx ns := by
  have hrefuse : ∀ problem args, (refuse problem t args).Ensures
      fun o => ∀ v, o = some v → v.ComesFrom ctx ns := fun problem args =>
    refuse_ensures (fun v hv => by cases hv) problem args
  by_cases hadd : op = .add
  · subst hadd
    rw [evalBinary]
    split
    · exact hrefuse _ _
    · split
      · exact .pure fun v hv => by cases hv; exact hy.add _
      · exact .pure fun v hv => by cases hv; exact hx.add _
  by_cases hsub : op = .sub
  · subst hsub
    rw [evalBinary]
    split
    · exact hrefuse _ _
    · split
      · exact hrefuse _ _
      · exact .pure fun v hv => by cases hv; exact hx.add _
  · rw [evalBinary_of_ne hadd hsub]
    split
    · exact hrefuse _ _
    · split
      · exact hrefuse _ _
      · exact .skip fun n => .pure fun v hv => by cases hv; exact .constant _

theorem comesFrom_eval (ctx : EvalContext) (e : Expr) :
    (e.eval ctx).Ensures fun o => ∀ v, o = some v → v.ComesFrom ctx e.names := by
  induction e with
  | integer n t => exact .pure fun v hv => by cases hv; exact .constant n
  | symbol n t =>
    rw [eval]
    cases hn : ctx.resolve n with
    | some a => exact .pure fun v hv => by cases hv; exact ⟨.inr ⟨n, a, hn, rfl⟩, fun r hr => by cases hr⟩
    | none =>
      refine .pure fun v hv => ?_
      cases hv
      exact ⟨.inl rfl, fun r hr => by cases hr; exact ⟨hn, n, List.mem_singleton_self n, rfl⟩⟩
  | group t e ih => exact ih
  | unary op t e ih =>
    refine .andThen ih fun o ho => ?_
    split
    · exact comesFrom_evalUnary op (ho _ rfl)
    · exact .pure fun v hv => by cases hv
  | binary op t l r ihl ihr =>
    refine .andThen ihl fun o ho => .andThen ihr fun o' ho' => ?_
    split
    · next x y =>
      have hx : x.ComesFrom ctx (binary op t l r).names :=
        (ho _ rfl).mono fun _ => List.mem_append_left _
      have hy : y.ComesFrom ctx (binary op t l r).names :=
        (ho' _ rfl).mono fun _ => List.mem_append_right _
      exact comesFrom_evalBinary op hx hy
    · exact .pure fun v hv => by cases hv

end Expr

end MipsToolchain
