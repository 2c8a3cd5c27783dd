import MipsToolchain.Expr.Operator
import MipsToolchain.Token.Basic

namespace MipsToolchain

/-- An expression over numbers and symbols. Every node keeps the token that it arose from, which for
a group is the opening parenthesis. -/
inductive Expr where
  | integer (value : Int64) (token : Token)
  | symbol (name : String) (token : Token)
  | unary (op : UnaryOperator) (token : Token) (arg : Expr)
  | binary (op : BinaryOperator) (token : Token) (lhs rhs : Expr)
  | group (token : Token) (body : Expr)
deriving DecidableEq, Repr

namespace Expr

def location : Expr → Source.Location
  | integer _ t => t.location
  | symbol _ t => t.location
  | unary _ t _ => t.location
  | binary _ _ l _ => l.location
  | group t _ => t.location

def symbol? : Expr → Option String
  | symbol name _ => some name
  | _ => none

/-- An expression with parentheses around every operation and nowhere else. -/
def render : Expr → String
  | integer v _ => toString v.toInt
  | symbol name _ => name
  | unary op _ e => "(" ++ op.symbol ++ e.render ++ ")"
  | binary op _ l r => "(" ++ l.render ++ " " ++ op.symbol ++ " " ++ r.render ++ ")"
  | group _ e => e.render

end Expr

end MipsToolchain
