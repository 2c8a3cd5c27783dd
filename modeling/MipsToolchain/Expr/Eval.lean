import MipsToolchain.Diagnostic.Reported
import MipsToolchain.Expr.Basic
import MipsToolchain.Object.Reference

namespace MipsToolchain

structure EvalContext where
  resolve : Name → Option Address
  location : Address

/-- The value of an expression. With a reference, the address is the constant part of a value that
depends on an unknown symbol. -/
structure ExprValue where
  address : Address
  reference : Option Reference
deriving DecidableEq, Repr

namespace ExprValue

def constant (v : Int64) : ExprValue := ⟨.absolute v, none⟩

instance : Inhabited ExprValue := ⟨constant 0⟩

def number (v : ExprValue) : Int64 := v.address.value

def isRelocatable (v : ExprValue) : Bool := v.address.isRelocatable || v.reference.isSome

def add (v : ExprValue) (delta : Int64) : ExprValue := { v with address := v.address.add delta }

/-- What a relocatable value is relative to: its symbol, or else its section. -/
def target (v : ExprValue) : Name :=
  match v.reference with
  | some r => r.symbol
  | none => v.address.sectionName

@[simp]
theorem isRelocatable_constant (n : Int64) : (constant n).isRelocatable = false := rfl

@[simp]
theorem isRelocatable_add (v : ExprValue) (d : Int64) :
    (v.add d).isRelocatable = v.isRelocatable := rfl

end ExprValue

namespace Expr

def refuse (p : Problem) (t : Token) (args : List MessageArg) : Guarded (Option ExprValue) := do
  report p t.location [t.text] args
  pure none

/-- Only sums with a number and differences to a number keep a value relocatable. -/
def evalBinary (op : BinaryOperator) (t : Token) (l r : ExprValue) : Guarded (Option ExprValue) :=
  match op with
  | .add =>
    if l.isRelocatable && r.isRelocatable then refuse .relocatableAdd t []
    else if r.isRelocatable then pure (some (r.add l.number))
    else pure (some (l.add r.number))
  | .sub =>
    if l.isRelocatable && r.isRelocatable then refuse .relocatableSubtract t []
    else if r.isRelocatable then refuse .relocatableSubtrahend t []
    else pure (some (l.add (-r.number)))
  | _ =>
    if l.isRelocatable || r.isRelocatable then refuse .relocatableOperand t [.text op.verb]
    else if op.isDivision && r.number == 0 then refuse .divisionByZero t []
    else do
      let v ← op.apply l.number r.number
      pure (some (.constant v))

def evalUnary (op : UnaryOperator) (t : Token) (v : ExprValue) : Guarded (Option ExprValue) :=
  match op with
  | .plus => pure (some v)
  | _ =>
    if v.isRelocatable then refuse .relocatableOperand t [.text op.verb]
    else pure (some (.constant (op.apply v.number)))

/-- The value of an expression. Both operands are evaluated in any case, so that the problems of
either are reported. A symbol that is not known leaves a reference behind. -/
def eval (ctx : EvalContext) : Expr → Guarded (Option ExprValue)
  | integer v _ => pure (some (.constant v))
  | symbol name _ =>
    match ctx.resolve name with
    | some a => pure (some ⟨a, none⟩)
    | none => pure (some ⟨.absolute 0, some ⟨ctx.location, name, .absolute32, 0⟩⟩)
  | group _ e => eval ctx e
  | unary op t e => do
    match ← eval ctx e with
    | some v => evalUnary op t v
    | none => pure none
  | binary op t l r => do
    let lhs ← eval ctx l
    let rhs ← eval ctx r
    match lhs, rhs with
    | some x, some y => evalBinary op t x y
    | _, _ => pure none

end Expr

end MipsToolchain
