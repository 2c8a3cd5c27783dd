import MipsToolchain.Expr.Parse
import MipsToolchain.Isa.Instruction

namespace MipsToolchain

inductive OperandForm where
  | register (r : Isa.Register)
  | expression (e : Expr)
  /-- A base register with an offset in front, as in `4($sp)` or `($a0)`. -/
  | memory (base : Isa.Register) (offset : Option Expr)
deriving DecidableEq, Repr

namespace OperandForm

def name : OperandForm → String
  | register _ => "register"
  | expression _ => "expression"
  | memory _ _ => "memory"

def register? : OperandForm → Option Isa.Register
  | register r => some r
  | expression _ => none
  | memory base _ => some base

def expr? : OperandForm → Option Expr
  | register _ => none
  | expression e => some e
  | memory _ offset => offset

def suits (f : OperandForm) (a : Isa.Argument) : Bool :=
  match f with
  | register _ => a.isRegister
  | memory _ _ => a == .memory
  | expression _ => !a.isRegister && a != .memory

end OperandForm

structure SourceOperand where
  form : OperandForm
  location : Source.Location
  text : String
deriving DecidableEq, Repr

namespace SourceOperand

def parseRegister (t : Token) : Reported (Option Isa.Register) :=
  match Isa.Register.parse? t.text with
  | some r => pure (some r)
  | none => do
    report .unknownRegister t.location [t.text] [.text t.text]
    pure none

def splitMemory? (tokens : List Token) : Option (List Token × Token) :=
  match tokens.reverse with
  | close :: r :: opening :: before =>
    if close.kind = .rparen ∧ r.kind = .register ∧ opening.kind = .lparen then
      some (before.reverse, r)
    else none
  | _ => none

def parseForm (tokens : List Token) (place : Source.Location) : Reported (Option OperandForm) :=
  match tokens with
  | [t] =>
    if t.kind = .register then do
      return (← parseRegister t).map .register
    else do
      return (← Expr.parse tokens place).map .expression
  | _ =>
    match splitMemory? tokens with
    | some ([], r) => do
      return (← parseRegister r).map (.memory · none)
    | some (before, r) => do
      let base ← parseRegister r
      let offset ← Expr.parse before place
      return base.bind fun b => offset.map fun e => .memory b (some e)
    | none => do
      return (← Expr.parse tokens place).map .expression

/-- The operand that tokens spell. An empty one is reported at the given place. -/
def parse (tokens : List Token) (place : Source.Location) : Reported (Option SourceOperand) :=
  match tokens with
  | [] => do
    report .incompleteExpression place [] []
    pure none
  | t :: _ => do
    return (← parseForm tokens place).map (⟨·, t.location, t.text⟩)

end SourceOperand

end MipsToolchain
