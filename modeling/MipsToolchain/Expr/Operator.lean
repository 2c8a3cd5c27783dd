import MipsToolchain.Fault

namespace MipsToolchain

/-- An operator with two operands. The operators of both kinds are closed sets, unlike the codes of
symbol types, bindings and relocations: those are read from files as they are, and operators only
ever come from their symbols. -/
inductive BinaryOperator where
  | add
  | sub
  | mul
  | div
  | mod
  | and
  | or
  | xor
  | shl
  | shr
deriving DecidableEq, Repr

/-- An operator with one operand, from a closed set as well. -/
inductive UnaryOperator where
  | plus
  | neg
  | not
deriving DecidableEq, Repr

namespace BinaryOperator

def symbol : BinaryOperator → String
  | add => "+"
  | sub => "-"
  | mul => "*"
  | div => "/"
  | mod => "%"
  | and => "&"
  | or => "|"
  | xor => "^"
  | shl => "<<"
  | shr => ">>"

def precedence : BinaryOperator → Nat
  | mul | div | mod => 6
  | add | sub => 5
  | shl | shr => 4
  | and => 3
  | xor => 2
  | or => 1

def verb : BinaryOperator → String
  | add => "add"
  | sub => "subtract"
  | mul => "multiply"
  | div => "divide"
  | mod => "take modulus of"
  | and => "and"
  | or => "or"
  | xor => "xor"
  | shl | shr => "shift"

def all : List BinaryOperator := [add, sub, mul, div, mod, and, or, xor, shl, shr]

def ofSymbol? (text : String) : Option BinaryOperator := all.find? (·.symbol = text)

/-- The value of an operator on 64-bit numbers. Results wrap around, quotients go toward zero, and
shifts take the amount modulo 64. -/
def apply (op : BinaryOperator) (l r : Int64) : Except Fault Int64 :=
  match op with
  | add => .ok (l + r)
  | sub => .ok (l - r)
  | mul => .ok (l * r)
  | div => if r = 0 then .error .divisionByZero else .ok (l / r)
  | mod => if r = 0 then .error .divisionByZero else .ok (l % r)
  | and => .ok (l &&& r)
  | or => .ok (l ||| r)
  | xor => .ok (l ^^^ r)
  | shl => .ok (l <<< (r &&& 63))
  | shr => .ok (l >>> (r &&& 63))

def isDivision : BinaryOperator → Bool
  | div | mod => true
  | _ => false

theorem apply_eq_ok (op : BinaryOperator) (l r : Int64) (h : op.isDivision = true → r ≠ 0) :
    ∃ v, op.apply l r = .ok v := by
  cases op <;> simp_all [apply, isDivision]

end BinaryOperator

namespace UnaryOperator

def symbol : UnaryOperator → String
  | plus => "+"
  | neg => "-"
  | not => "~"

def precedence : UnaryOperator → Nat := fun _ => 7

def verb : UnaryOperator → String
  | plus => "add"
  | neg => "negate"
  | not => "complement"

def all : List UnaryOperator := [plus, neg, not]

def ofSymbol? (text : String) : Option UnaryOperator := all.find? (·.symbol = text)

def apply (op : UnaryOperator) (v : Int64) : Int64 :=
  match op with
  | plus => v
  | neg => -v
  | not => ~~~v

end UnaryOperator

inductive Operator where
  | binary (op : BinaryOperator)
  | unary (op : UnaryOperator)
deriving DecidableEq, Repr

namespace Operator

def all : List Operator := BinaryOperator.all.map binary ++ UnaryOperator.all.map unary

def symbol : Operator → String
  | binary op => op.symbol
  | unary op => op.symbol

def precedence : Operator → Nat
  | binary op => op.precedence
  | unary op => op.precedence

def isUnary : Operator → Bool
  | binary _ => false
  | unary _ => true

/-- The value of an operator on two operands, which only binary operators have. -/
def apply (op : Operator) (l r : Int64) : Except Fault Int64 :=
  match op with
  | binary op => op.apply l r
  | unary op => .error (.notBinary op.symbol)

end Operator

end MipsToolchain
