import MipsToolchain.Proofs.Encoding.Steps
import MipsToolchain.Proofs.Expr.Parsing
import MipsToolchain.Proofs.Quiet

namespace MipsToolchain

open Diagnostic

variable {kind : Diagnostic → Bool}

namespace ExprBuilder

theorem add_quiet (b : ExprBuilder) (item : ExprItem) (t : Token) :
    (b.add item t).Quiet kind fun x => x.2.failed = false := by
  have hreject : (b.reject t).Quiet kind fun x => x.2.failed = false := .failure nofun
  obtain ⟨spine, focus, failed⟩ := b
  cases focus with
  | none =>
    cases item with
    | operator op =>
      cases op with
      | unary => exact .pure _
      | binary => exact hreject
    | integer | symbol | openGroup => exact .pure _
    | closeGroup => exact hreject
  | some e =>
    cases item with
    | operator op =>
      cases op with
      | unary => exact hreject
      | binary => exact .pure _
    | integer | symbol | openGroup => exact hreject
    | closeGroup =>
      unfold add
      dsimp only
      split
      · exact .pure _
      · exact .failure nofun

theorem build_quiet (b : ExprBuilder) (place : Source.Location) :
    (b.build place).Quiet kind fun x => x.isSome := by
  unfold build
  split
  · exact .pure _
  · split
    · exact .failure nofun
    · split
      · exact .failure nofun
      · exact .pure _

theorem failed_of_build {b : ExprBuilder} {place : Source.Location}
    (h : (b.build place).value.isSome) : b.failed = false := by
  cases hb : b.failed with
  | false => rfl
  | true => simp [build, hb] at h

end ExprBuilder

namespace Expr

theorem addToken_quiet (b : ExprBuilder) (t : Token) :
    (addToken b t).Quiet kind fun b' => b'.failed = false := by
  unfold addToken
  split
  · exact .map (b.add_quiet _ t) fun _ => id
  · exact .failure nofun

theorem addTokens_quiet (b : ExprBuilder) (ts : List Token) :
    (addTokens b ts).Quiet kind fun b' => b'.failed = false := by
  induction ts generalizing b with
  | nil => exact .pure _
  | cons t ts ih =>
    refine .bind (addToken_quiet b t) (fun b' h => ?_) fun b' _ => ih b'
    cases hb : b'.failed with
    | false => rfl
    | true => cases (failed_addTokens b' ts hb).symm.trans h

theorem parse_quiet (ts : List Token) (place : Source.Location) :
    (parse ts place).Quiet kind fun x => x.isSome :=
  .bind (addTokens_quiet .empty ts) (fun _ => ExprBuilder.failed_of_build) fun b _ =>
    b.build_quiet place

theorem refuse_quiet (p : Problem) (t : Token) (args : List MessageArg) :
    (refuse p t args).Quiet kind fun x => x.isSome :=
  .failure (.skip fun _ => .pure nofun)

theorem evalUnary_quiet (op : UnaryOperator) (t : Token) (v : ExprValue) :
    (evalUnary op t v).Quiet kind fun x => x.isSome := by
  unfold evalUnary
  split
  · exact .pure _
  · split
    · exact refuse_quiet _ _ _
    · exact .pure _

theorem evalBinary_quiet (op : BinaryOperator) (t : Token) (l r : ExprValue) :
    (evalBinary op t l r).Quiet kind fun x => x.isSome := by
  unfold evalBinary
  split
  · split
    · exact refuse_quiet _ _ _
    · split <;> exact .pure _
  · split
    · exact refuse_quiet _ _ _
    · split
      · exact refuse_quiet _ _ _
      · exact .pure _
  · split
    · exact refuse_quiet _ _ _
    · split
      · exact refuse_quiet _ _ _
      · exact .skip (.ofExcept _) fun _ => .pure _

theorem eval_quiet (ctx : EvalContext) (e : Expr) : (e.eval ctx).Quiet kind fun x => x.isSome := by
  induction e with
  | integer v t => exact .pure _
  | symbol name t =>
    rw [eval]
    split <;> exact .pure _
  | group t e ih => exact ih
  | unary op t e ih =>
    exact .bindSome ih (.pure Bool.false_ne_true) fun v => evalUnary_quiet op t v
  | binary op t l r ihl ihr =>
    refine .bindSome ihl (.skip fun _ => .pure Bool.false_ne_true) fun v => ?_
    exact .bindSome ihr (.pure Bool.false_ne_true) fun w => evalBinary_quiet op t v w

end Expr

namespace SourceOperand

theorem parseRegister_quiet (t : Token) : (parseRegister t).Quiet kind fun x => x.isSome := by
  unfold parseRegister
  split
  · exact .pure _
  · exact .failure nofun

theorem parseForm_quiet (ts : List Token) (place : Source.Location) :
    (parseForm ts place).Quiet kind fun x => x.isSome := by
  have hexpr : ∀ us, (do return (← Expr.parse us place).map .expression :
      Reported (Option OperandForm)).Quiet kind fun x => x.isSome := fun us =>
    .mapSome (Expr.parse_quiet us place)
  unfold parseForm
  split
  · split
    · exact .mapSome (parseRegister_quiet _)
    · exact hexpr _
  · split
    · exact .mapSome (parseRegister_quiet _)
    · exact .bindSome (parseRegister_quiet _) nofun fun r => .mapSome (Expr.parse_quiet _ place)
    · exact hexpr _

theorem parse_quiet (ts : List Token) (place : Source.Location) :
    (parse ts place).Quiet kind fun x => x.isSome := by
  unfold parse
  split
  · exact .failure nofun
  · exact .mapSome (parseForm_quiet _ place)

end SourceOperand

namespace Encoder

theorem recognise_quiet (enc : Encoder) (t : Token) :
    (enc.recognise t).Quiet kind fun x => x.isSome := by
  unfold recognise
  dsimp only
  split
  · exact .pure _
  · split
    · exact .pure _
    · exact .failure nofun
  · exact .failure nofun
  · exact .failure nofun

theorem parseOperand_quiet (t : Token) (number : Nat) (a : Isa.Argument) (ts : List Token) :
    (parseOperand t number a ts).Quiet kind fun x => x.isSome := by
  unfold parseOperand
  refine .bindSome (SourceOperand.parse_quiet ts t.location) nofun fun o => ?_
  dsimp only
  split
  · exact .pure _
  · exact .failure nofun

theorem parseOperands_quiet (t : Token) (number : Nat) {as : List Isa.Argument}
    {operands : List (List Token)} (h : operands.length = as.length) :
    (parseOperands t number as operands h).Quiet kind fun x => x.isSome := by
  induction as generalizing number operands with
  | nil =>
    obtain rfl := List.length_eq_zero_iff.mp h
    exact .pure _
  | cons a as ih =>
    match operands, h with
    | ts :: rest, h =>
      exact .bindSome (parseOperand_quiet t number a ts) nofun fun o =>
        .mapSome (ih (number + 1) (Nat.succ.inj h))

theorem parse_quiet (m : Mnemonic) (t : Token) (operands : List (List Token)) :
    (parse m t operands).Quiet kind fun x => x.isSome := by
  unfold parse
  split
  · next h => exact .mapSome (parseOperands_quiet t 1 h)
  · exact .failure Bool.false_ne_true

theorem evaluate_quiet (ctx : EvalContext) (o : SourceOperand) :
    (evaluate ctx o).Quiet kind fun x => x.isSome := by
  unfold evaluate
  dsimp only
  split
  · exact .pure _
  · exact .mapSome (Expr.eval_quiet ctx _)

theorem evaluateAll_quiet (ctx : EvalContext) (os : List SourceOperand) :
    (evaluateAll ctx os).Quiet kind fun x => x.isSome := by
  induction os with
  | nil => exact .pure _
  | cons o os ih =>
    exact .bindSome (evaluate_quiet ctx o) (.skip fun _ => .pure nofun) fun v => .mapSome ih

end Encoder

namespace OperandValue

theorem warning_quiet (v : OperandValue) {p : Problem} (hp : p.severity ≠ .error)
    (args : List MessageArg) {post : Unit → Prop} : (v.report p args).Quiet isError post := by
  unfold report
  split <;> exact .warning hp

theorem refuse_quiet (v : OperandValue) (p : Problem) (args : List MessageArg) :
    (v.refuse p args).Quiet isError fun x => x.isSome :=
  .failure nofun

variable (v : OperandValue) (loc : Address)

theorem encodeShift_quiet : v.encodeShift.Quiet isError fun x => x.isSome := by
  unfold encodeShift
  split
  · exact v.refuse_quiet _ _
  · dsimp only
    split
    · exact .pure _
    · exact .skip (v.warning_quiet (by decide) _) fun _ => .pure _

theorem checkImmediate_quiet (unsigned : Bool) {post : Unit → Prop} :
    (v.checkImmediate unsigned).Quiet isError post := by
  unfold checkImmediate
  dsimp only
  split
  all_goals
    split
    · exact .pure _
    · exact v.warning_quiet (by decide) _

theorem encodeImmediate_quiet (unsigned : Bool) :
    (v.encodeImmediate unsigned loc).Quiet isError fun x => x.isSome := by
  unfold encodeImmediate
  dsimp only
  split
  · split <;> exact .pure _
  · split
    · exact .pure _
    · exact .pure _
    · exact .skip (v.checkImmediate_quiet unsigned) fun _ => .pure _

theorem encodeDisplacement_quiet (words : Int64) :
    (v.encodeDisplacement words).Quiet isError fun x => x.isSome := by
  unfold encodeDisplacement
  split
  · exact .pure _
  · exact v.refuse_quiet _ _

theorem encodeBranch_quiet : (v.encodeBranch loc).Quiet isError fun x => x.isSome := by
  unfold encodeBranch
  dsimp only
  split
  · exact v.encodeDisplacement_quiet _
  · split
    · split
      · exact v.refuse_quiet _ _
      · exact v.encodeDisplacement_quiet _
    · split
      · exact v.refuse_quiet _ _
      · exact .pure _

theorem encodeTarget_quiet : (v.encodeTarget loc).Quiet isError fun x => x.isSome := by
  unfold encodeTarget
  dsimp only
  split
  · exact v.refuse_quiet _ _
  · split
    · exact .pure _
    · split
      · exact .pure _
      · exact .skip (v.warning_quiet (by decide) _) fun _ => .pure _

theorem encode_quiet (a : Isa.Argument) : (v.encode a loc).Quiet isError fun x => x.isSome := by
  cases a with
  | rs | rt | rd => exact .pure _
  | shamt => exact v.encodeShift_quiet
  | immediate => exact v.encodeImmediate_quiet loc false
  | unsigned => exact v.encodeImmediate_quiet loc true
  | memory => exact .mapSome (v.encodeImmediate_quiet loc false)
  | branch => exact v.encodeBranch_quiet loc
  | target => exact v.encodeTarget_quiet loc

end OperandValue

namespace Encoder

theorem checkConstants_quiet (as : List Isa.Argument) (vs : List OperandValue)
    {post : Unit → Prop} : (checkConstants as vs).Quiet isError post := by
  induction as generalizing vs with
  | nil => exact .pure _
  | cons a as ih =>
    cases vs with
    | nil => exact .fault
    | cons v vs =>
      rw [checkConstants]
      dsimp only
      split
      · exact .skip (.ofReported (v.warning_quiet (by decide) _)) fun _ => ih vs
      · exact ih vs

theorem encodeFields_quiet (loc : Address) (as : List Isa.Argument) (vs : List OperandValue) :
    (encodeFields loc as vs).Quiet isError fun fields => fields.all Option.isSome := by
  induction as generalizing vs with
  | nil => exact .pure _
  | cons a as ih =>
    cases vs with
    | nil => exact .fault
    | cons v vs =>
      rw [encodeFields]
      refine .bind (.ofReported (v.encode_quiet loc a)) (fun f => .skip fun fields => .pure ?_) ?_
      · exact fun h => (Bool.and_eq_true_iff.mp h).1
      · exact fun f _ => .map (ih vs) fun fields h => (Bool.and_eq_true_iff.mp h).2

theorem encodeStep_quiet (loc : Address) (s : MachineStep) :
    (encodeStep loc s).Quiet isError fun x => x.2 :=
  .bind (encodeFields_quiet loc _ _) (fun _ => .skip fun _ => .pure id) fun _ _ =>
    .skip (.ofExcept _) fun _ => .pure _

theorem encodeSteps_quiet (loc : Address) (ss : List MachineStep) :
    (encodeSteps loc ss).Quiet isError fun x => x.2 := by
  induction ss generalizing loc with
  | nil => exact .pure _
  | cons s ss ih =>
    rw [encodeSteps]
    refine .bind (encodeStep_quiet loc s) (fun x => .skip fun y => .pure ?_) ?_
    · exact fun h => (Bool.and_eq_true_iff.mp h).1
    · exact fun x _ => .map (ih (loc.add 4)) fun y h => (Bool.and_eq_true_iff.mp h).2

theorem encode_quiet (enc : Encoder) (ctx : EvalContext) (p : ParsedInstruction) :
    (enc.encode ctx p).Quiet isError fun x => x.2 := by
  have hsteps : ∀ values, (do
      let steps ← enc.expand p.mnemonic values
      encodeSteps ctx.location steps : Guarded _).Quiet isError fun x => x.2 := fun values =>
    .skip (.ofExcept _) fun steps => encodeSteps_quiet ctx.location steps
  unfold encode
  refine .bindSome (evaluateAll_quiet ctx p.operands) (.pure nofun) fun values => ?_
  dsimp only
  split
  · exact .skip (checkConstants_quiet _ values) fun _ => hsteps values
  · exact hsteps values

end Encoder

end MipsToolchain
