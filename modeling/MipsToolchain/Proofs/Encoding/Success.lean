import MipsToolchain.Encoding.Encoder
import MipsToolchain.Proofs.Effects

namespace MipsToolchain

open Guarded

namespace ExprBuilder

theorem add_yields (b : ExprBuilder) (item : ExprItem) (t : Token) :
    (b.add item t).Yields fun x => x.2.failed = b.failed := by
  obtain ⟨spine, focus, failed⟩ := b
  cases focus with
  | none =>
    cases item with
    | operator op =>
      cases op with
      | unary => exact .pure rfl
      | binary => exact .ofReport rfl
    | integer | symbol | openGroup => exact .pure rfl
    | closeGroup => exact .ofReport rfl
  | some e =>
    cases item with
    | operator op =>
      cases op with
      | unary => exact .ofReport rfl
      | binary => exact .pure rfl
    | integer | symbol | openGroup => exact .ofReport rfl
    | closeGroup =>
      unfold add
      dsimp only
      split
      · exact .pure rfl
      · exact .ofReport rfl

theorem build_yields {b : ExprBuilder} (hb : b.failed = false) (place : Source.Location) :
    (b.build place).Yields fun x => x.isSome := by
  unfold build
  rw [if_neg (by simp [hb])]
  split
  · exact .ofReport rfl
  · split
    · exact .ofReport rfl
    · exact .pure rfl

end ExprBuilder

namespace Expr

theorem addToken_yields (b : ExprBuilder) (t : Token) :
    (addToken b t).Yields fun b' => b'.failed = b.failed := by
  unfold addToken
  split
  · exact .andThen (b.add_yields _ t) fun x hx => .pure hx
  · exact .andThen (x := b.reject t) (p := fun _ => False) (.ofReport rfl) fun _ h => h.elim

theorem addTokens_yields (b : ExprBuilder) (ts : List Token) :
    (addTokens b ts).Yields fun b' => b'.failed = b.failed := by
  induction ts generalizing b with
  | nil => exact .pure rfl
  | cons t ts ih =>
    exact .andThen (addToken_yields b t) fun b' hb => .mono (ih b') fun _ h => h.trans hb

theorem parse_yields (ts : List Token) (place : Source.Location) :
    (parse ts place).Yields fun x => x.isSome :=
  .andThen (addTokens_yields .empty ts) fun _ hb => ExprBuilder.build_yields hb place

theorem refuse_yields {p : Problem} (hp : p.severity = .error) (t : Token)
    (args : List MessageArg) (post : Option ExprValue → Prop) : (refuse p t args).Yields post :=
  .ofReport hp

theorem evalUnary_yields (op : UnaryOperator) (t : Token) (v : ExprValue) :
    (evalUnary op t v).Yields fun x => x.isSome := by
  unfold evalUnary
  split
  · exact .pure rfl
  · split
    · exact refuse_yields rfl _ _ _
    · exact .pure rfl

theorem evalBinary_yields (op : BinaryOperator) (t : Token) (l r : ExprValue) :
    (evalBinary op t l r).Yields fun x => x.isSome := by
  unfold evalBinary
  split
  · split
    · exact refuse_yields rfl _ _ _
    · split <;> exact .pure rfl
  · split
    · exact refuse_yields rfl _ _ _
    · split
      · exact refuse_yields rfl _ _ _
      · exact .pure rfl
  · split
    · exact refuse_yields rfl _ _ _
    · split
      · exact refuse_yields rfl _ _ _
      · exact .skip fun _ => .pure rfl

theorem eval_yields (ctx : EvalContext) (e : Expr) : (e.eval ctx).Yields fun x => x.isSome := by
  induction e with
  | integer v t => exact .pure rfl
  | symbol name t =>
    rw [eval]
    split <;> exact .pure rfl
  | group t e ih => exact ih
  | unary op t e ih => exact .andThenSome ih fun v => evalUnary_yields op t v
  | binary op t l r ihl ihr =>
    exact .andThenSome ihl fun v => .andThenSome ihr fun w => evalBinary_yields op t v w

end Expr

namespace SourceOperand

theorem parseRegister_yields (t : Token) : (parseRegister t).Yields fun x => x.isSome := by
  unfold parseRegister
  split
  · exact .pure rfl
  · exact .ofReport rfl

theorem parseForm_yields (ts : List Token) (place : Source.Location) :
    (parseForm ts place).Yields fun x => x.isSome := by
  have hexpr : ∀ us, (do return (← Expr.parse us place).map .expression :
      Reported (Option OperandForm)).Yields fun x => x.isSome := fun us =>
    .mapSome (Expr.parse_yields us place)
  unfold parseForm
  split
  · split
    · exact .mapSome (parseRegister_yields _)
    · exact hexpr _
  · split
    · exact .mapSome (parseRegister_yields _)
    · exact .andThenSome (parseRegister_yields _) fun r => .mapSome (Expr.parse_yields _ place)
    · exact hexpr _

theorem parse_yields (ts : List Token) (place : Source.Location) :
    (parse ts place).Yields fun x => x.isSome := by
  unfold parse
  split
  · exact .ofReport rfl
  · exact .mapSome (parseForm_yields _ place)

end SourceOperand

namespace Encoder

theorem recognise_yields (enc : Encoder) (t : Token) :
    (enc.recognise t).Yields fun x => x.isSome := by
  unfold recognise
  dsimp only
  split
  · exact .pure rfl
  · split
    · exact .pure rfl
    · exact .ofReport rfl
  · exact .ofReport rfl
  · exact .ofReport rfl

theorem parseOperand_yields (t : Token) (number : Nat) (a : Isa.Argument) (ts : List Token) :
    (parseOperand t number a ts).Yields fun x => x.isSome := by
  unfold parseOperand
  refine .andThenSome (SourceOperand.parse_yields ts t.location) fun o => ?_
  dsimp only
  split
  · exact .pure rfl
  · exact .ofReport rfl

theorem parseOperands_yields (t : Token) (number : Nat) {as : List Isa.Argument}
    {operands : List (List Token)} (h : operands.length = as.length) :
    (parseOperands t number as operands h).Yields fun x => x.isSome := by
  induction as generalizing number operands with
  | nil =>
    obtain rfl := List.length_eq_zero_iff.mp h
    exact .pure rfl
  | cons a as ih =>
    match operands, h with
    | ts :: rest, h =>
      exact .andThenSome (parseOperand_yields t number a ts) fun o =>
        .mapSome (ih (number + 1) (Nat.succ.inj h))

theorem parse_yields (m : Mnemonic) (t : Token) (operands : List (List Token)) :
    (parse m t operands).Yields fun x => x.isSome := by
  unfold parse
  split
  · next h => exact .mapSome (parseOperands_yields t 1 h)
  · exact .ofReport rfl

theorem evaluate_yields (ctx : EvalContext) (o : SourceOperand) :
    (evaluate ctx o).Yields fun x => x.isSome := by
  unfold evaluate
  dsimp only
  split
  · exact .pure rfl
  · exact .mapSome (Expr.eval_yields ctx _)

theorem evaluateAll_yields (ctx : EvalContext) (os : List SourceOperand) :
    (evaluateAll ctx os).Yields fun x => x.isSome := by
  induction os with
  | nil => exact .pure rfl
  | cons o os ih =>
    exact .andThenSome (evaluate_yields ctx o) fun v => .mapSome ih

end Encoder

end MipsToolchain
