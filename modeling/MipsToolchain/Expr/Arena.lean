import MipsToolchain.Expr.Eval
import MipsToolchain.Expr.Parse

namespace MipsToolchain

/-- A node of an expression, with the places of the nodes around it. A binary operator uses both
slots for operands, and a unary operator or a group uses the left one. -/
structure ArenaNode where
  item : ExprItem
  token : Token
  parent : Option Nat := none
  left : Option Nat := none
  right : Option Nat := none
  closed : Bool := false
deriving DecidableEq, Repr

namespace ArenaNode

def isOpenGroup (n : ArenaNode) : Bool := n.item == .openGroup && !n.closed

def isBinary (n : ArenaNode) : Bool :=
  match n.item with
  | .operator (.binary _) => true
  | _ => false

/-- The precedence of an operator. Nothing else is above an operand that an operator can take. -/
def precedence (n : ArenaNode) : Except Fault Nat :=
  match n.item with
  | .operator op => .ok op.precedence
  | _ => .error .unreachable

def fill (n : ArenaNode) (right : Bool) (child : Nat) : ArenaNode :=
  if right then { n with right := some child } else { n with left := some child }

end ArenaNode

/-- An expression that grows from left to right, as nodes that refer to one another by their places
in the order of their arrival. It is built from the same items as with `ExprBuilder`, but in place,
so that places have to be right. -/
structure ExprArena where
  nodes : List ArenaNode := []
  root : Option Nat := none
  /-- The newest node, or the group that was closed after it. The next operand goes below it. -/
  active : Option Nat := none
  expecting : Bool := true
  failed : Bool := false
deriving DecidableEq, Repr

namespace ExprArena

def empty : ExprArena := {}

def node (a : ExprArena) (i : Option Nat) : Except Fault ArenaNode :=
  match i.bind (a.nodes[·]?) with
  | some n => .ok n
  | none => .error .outOfRange

def update (a : ExprArena) (i : Option Nat) (f : ArenaNode → ArenaNode) : Except Fault ExprArena :=
  match i with
  | some i =>
    if i < a.nodes.length then .ok { a with nodes := a.nodes.modify i f } else .error .outOfRange
  | none => .error .outOfRange

def alloc (a : ExprArena) (n : ArenaNode) : ExprArena := { a with nodes := a.nodes ++ [n] }

def reject (a : ExprArena) (t : Token) : Reported (Bool × ExprArena) := do
  report .unexpectedExprToken t.location [t.text] [.text t.describe]
  pure (false, { a with failed := true })

def attach (a : ExprArena) (i : Nat) : Except Fault ExprArena :=
  match a.root with
  | none => .ok { a with root := some i }
  | some _ => do
    let a ← a.update (some i) ({ · with parent := a.active })
    let n ← a.node a.active
    a.update a.active (·.fill n.isBinary i)

def addOperand (a : ExprArena) (item : ExprItem) (t : Token) (pending : Bool) :
    Guarded (Bool × ExprArena) :=
  if a.expecting then do
    let i := a.nodes.length
    let b ← (a.alloc { item, token := t }).attach i
    pure (true, { b with active := some i, expecting := pending })
  else a.reject t

/-- Walk up while operators hold the operand at least as tightly as a new one would. The result is
the operand of the new operator and what is above it. -/
def climb (a : ExprArena) (precedence : Nat) :
    Nat → Option Nat → Option Nat → Except Fault (Option Nat × Option Nat)
  | _, child, none => .ok (child, none)
  | 0, _, some _ => .error .unreachable
  | fuel + 1, child, some p => do
    let n ← a.node (some p)
    if n.isOpenGroup then return (child, some p)
    let held ← n.precedence
    if precedence ≤ held then a.climb precedence fuel (some p) n.parent
    else return (child, some p)

def splice (a : ExprArena) (op : BinaryOperator) (t : Token) (child parent : Option Nat) :
    Except Fault ExprArena := do
  let i := a.nodes.length
  let a := a.alloc { item := .operator (.binary op), token := t, parent, left := child }
  let a ← a.update child ({ · with parent := some i })
  match parent with
  | none => return { a with root := some i }
  | some _ => do
    let n ← a.node parent
    a.update parent (·.fill (n.right == child) i)

def addInfix (a : ExprArena) (op : BinaryOperator) (t : Token) : Guarded (Bool × ExprArena) :=
  if a.expecting then a.reject t
  else do
    let n ← a.node a.active
    let (child, parent) ← a.climb op.precedence a.nodes.length a.active n.parent
    let b ← a.splice op t child parent
    pure (true, { b with active := some a.nodes.length, expecting := true })

def openGroup? (a : ExprArena) : Nat → Option Nat → Except Fault (Option Nat)
  | _, none => .ok none
  | 0, some _ => .error .unreachable
  | fuel + 1, some i => do
    let n ← a.node (some i)
    if n.isOpenGroup then return some i
    a.openGroup? fuel n.parent

def closeGroup (a : ExprArena) (t : Token) : Guarded (Bool × ExprArena) :=
  if a.expecting then a.reject t
  else do
    match ← a.openGroup? a.nodes.length a.active with
    | none =>
      report .unbalancedParenthesis t.location [t.text] []
      pure (false, { a with failed := true })
    | some g =>
      let b ← a.update (some g) ({ · with closed := true })
      pure (true, { b with active := some g })

/-- Add an item with its token. Beside the new state stands whether the item can appear there. -/
def add (a : ExprArena) (item : ExprItem) (t : Token) : Guarded (Bool × ExprArena) :=
  match item with
  | .closeGroup => a.closeGroup t
  | .operator (.binary op) => a.addInfix op t
  | .operator (.unary _) | .openGroup => a.addOperand item t true
  | .integer _ | .symbol _ => a.addOperand item t false

def build (a : ExprArena) (place : Source.Location) : Reported Bool :=
  if a.failed then pure false
  else if a.root.isNone || a.expecting then do
    report .incompleteExpression ((a.nodes.getLast?.map (·.token.location)).getD place) [] []
    pure false
  else match a.nodes.find? ArenaNode.isOpenGroup with
    | some n => do
      report .unbalancedParenthesis n.token.location [n.token.text] []
      pure false
    | none => pure true

def evalAt (a : ExprArena) (ctx : EvalContext) : Nat → Option Nat → Guarded (Option ExprValue)
  | 0, _ => .fault .unreachable
  | fuel + 1, i => do
    let n ← a.node i
    match n.item with
    | .integer v => pure (some (.constant v))
    | .symbol name => (Expr.symbol name n.token).eval ctx
    | .openGroup => a.evalAt ctx fuel n.left
    | .operator (.unary op) => do
      match ← a.evalAt ctx fuel n.left with
      | some v => Expr.evalUnary op n.token v
      | none => pure none
    | .operator (.binary op) => do
      let lhs ← a.evalAt ctx fuel n.left
      let rhs ← a.evalAt ctx fuel n.right
      match lhs, rhs with
      | some x, some y => Expr.evalBinary op n.token x y
      | _, _ => pure none
    | .closeGroup => .fault .unreachable

def eval (a : ExprArena) (ctx : EvalContext) : Guarded (Option ExprValue) :=
  a.evalAt ctx a.nodes.length a.root

def addToken (a : ExprArena) (t : Token) : Guarded ExprArena := do
  match Expr.item? t a.expecting with
  | some item => return (← a.add item t).2
  | none => return (← a.reject t).2

def addTokens (a : ExprArena) : List Token → Guarded ExprArena
  | [] => pure a
  | t :: ts => do
    let a ← a.addToken t
    a.addTokens ts

/-- The value of the expression that tokens spell, if they spell one and it has a value. -/
def evaluate (tokens : List Token) (place : Source.Location) (ctx : EvalContext) :
    Guarded (Option ExprValue) := do
  let a ← addTokens empty tokens
  if ← a.build place then a.eval ctx else pure none

end ExprArena

end MipsToolchain
