import MipsToolchain.Diagnostic.Reported
import MipsToolchain.Expr.Basic

namespace MipsToolchain

/-- What an expression grows by. There are no other items, as operators are a closed set. -/
inductive ExprItem where
  | integer (value : Int64)
  | symbol (name : String)
  | operator (op : Operator)
  | openGroup
  | closeGroup
deriving DecidableEq, Repr

/-- What surrounds the place where an expression grows. -/
inductive ExprFrame where
  | unary (op : UnaryOperator) (token : Token)
  | binary (op : BinaryOperator) (token : Token) (lhs : Expr)
  | group (token : Token)
deriving DecidableEq, Repr

namespace ExprFrame

def token : ExprFrame → Token
  | unary _ t => t
  | binary _ t _ => t
  | group t => t

/-- How tightly a frame holds its last operand. A group lets nothing out. -/
def precedence? : ExprFrame → Option Nat
  | unary op _ => some op.precedence
  | binary op _ _ => some op.precedence
  | group _ => none

def fill : ExprFrame → Expr → Expr
  | unary op t, e => .unary op t e
  | binary op t l, e => .binary op t l e
  | group t, e => .group t e

def groupToken? : ExprFrame → Option Token
  | group t => some t
  | _ => none

end ExprFrame

/-- An expression that grows from left to right: the frames around the place of growth, the
innermost first, and the operand that is complete there. Without one, an operand comes next. -/
structure ExprBuilder where
  spine : List ExprFrame := []
  focus : Option Expr := none
  failed : Bool := false
deriving DecidableEq, Repr

namespace ExprBuilder

def empty : ExprBuilder := {}

def expecting (b : ExprBuilder) : Bool := b.focus.isNone

/-- Close the frames that hold their operand at least as tightly as an operator would. -/
def climb (precedence : Nat) (e : Expr) : List ExprFrame → Expr × List ExprFrame
  | [] => (e, [])
  | f :: fs =>
    match f.precedence? with
    | some p => if precedence ≤ p then climb precedence (f.fill e) fs else (e, f :: fs)
    | none => (e, f :: fs)

def closeTo (e : Expr) : List ExprFrame → Option (Expr × List ExprFrame)
  | [] => none
  | .group t :: fs => some (.group t e, fs)
  | f :: fs => closeTo (f.fill e) fs

def closeAll (e : Expr) : List ExprFrame → Expr
  | [] => e
  | f :: fs => closeAll (f.fill e) fs

def reject (b : ExprBuilder) (t : Token) : Reported (Bool × ExprBuilder) := do
  report .unexpectedExprToken t.location [t.text] [.text t.describe]
  pure (false, { b with failed := true })

def accept (b : ExprBuilder) : Reported (Bool × ExprBuilder) := pure (true, b)

/-- Add an item with its token. Beside the new state stands whether the item can appear there. -/
def add (b : ExprBuilder) (item : ExprItem) (t : Token) : Reported (Bool × ExprBuilder) :=
  match b.focus, item with
  | none, .integer v => accept { b with focus := some (.integer v t) }
  | none, .symbol n => accept { b with focus := some (.symbol n t) }
  | none, .operator (.unary op) => accept { b with spine := .unary op t :: b.spine }
  | none, .openGroup => accept { b with spine := .group t :: b.spine }
  | some e, .operator (.binary op) =>
    let (lhs, spine) := climb op.precedence e b.spine
    accept { b with spine := .binary op t lhs :: spine, focus := none }
  | some e, .closeGroup =>
    match closeTo e b.spine with
    | some (g, spine) => accept { b with spine := spine, focus := some g }
    | none => do
      report .unbalancedParenthesis t.location [t.text] []
      pure (false, { b with failed := true })
  | _, _ => b.reject t

def build (b : ExprBuilder) (place : Source.Location) : Reported (Option Expr) :=
  if b.failed then pure none
  else match b.focus with
    | none => do
      report .incompleteExpression ((b.spine.head?.map (·.token.location)).getD place) [] []
      pure none
    | some e =>
      match (b.spine.filterMap ExprFrame.groupToken?).getLast? with
      | some t => do
        report .unbalancedParenthesis t.location [t.text] []
        pure none
      | none => pure (some (closeAll e b.spine))

end ExprBuilder

end MipsToolchain
