import MipsToolchain.Expr.Builder
import MipsToolchain.Token.Literal

namespace MipsToolchain.Expr

/-- The item that a token stands for. An operator is unary where an operand is expected. -/
def item? (t : Token) (expecting : Bool) : Option ExprItem :=
  match t.kind with
  | .immediate => (Literal.integer? t.text).map .integer
  | .char =>
    let code := ((Literal.unquote t.text).1.toList.head?.map Char.toNat).getD 0
    some (.integer (Int64.ofNat code))
  | .identifier => some (.symbol t.text)
  | .lparen => some .openGroup
  | .rparen => some .closeGroup
  | .operator =>
    if expecting then (UnaryOperator.ofSymbol? t.text).map (.operator ∘ .unary)
    else (BinaryOperator.ofSymbol? t.text).map (.operator ∘ .binary)
  | _ => none

def addToken (b : ExprBuilder) (t : Token) : Reported ExprBuilder := do
  match item? t b.expecting with
  | some item => return (← b.add item t).2
  | none => return (← b.reject t).2

def addTokens (b : ExprBuilder) : List Token → Reported ExprBuilder
  | [] => pure b
  | t :: ts => do
    let b ← addToken b t
    addTokens b ts

def parse (tokens : List Token) (place : Source.Location) : Reported (Option Expr) := do
  let b ← addTokens .empty tokens
  b.build place

end MipsToolchain.Expr
