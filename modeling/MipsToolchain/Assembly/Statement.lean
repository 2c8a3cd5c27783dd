import MipsToolchain.Diagnostic.Reported
import MipsToolchain.Text.LowerCase
import MipsToolchain.Token.Basic

namespace MipsToolchain

structure StatementBody where
  head : Token
  args : List (List Token)
deriving DecidableEq, Repr

namespace StatementBody

def name (b : StatementBody) : String := Text.lower b.head.text

def isInstruction (b : StatementBody) : Bool := b.head.kind == .instruction

def isDirective (b : StatementBody) : Bool := b.head.kind == .directive

end StatementBody

structure Statement where
  labels : List Token
  body : Option StatementBody
deriving DecidableEq, Repr

namespace Statement

/-- The groups of tokens between commas, of which there is at least one. -/
def splitCommas : List Token → List (List Token)
  | [] => [[]]
  | t :: ts =>
    if t.kind = .comma then [] :: splitCommas ts
    else match splitCommas ts with
      | [] => [[t]]
      | g :: gs => (t :: g) :: gs

/-- The arguments of a line. A line that ends with its head has none. -/
def arguments : List Token → List (List Token)
  | [] => []
  | ts => splitCommas ts

def isLabel (t : Token) : Bool := t.kind == .label

/-- The statement of a line, and whether the line is well formed. The statement of a malformed line
is to be ignored. Unknown tokens have been reported when the line was tokenized. -/
def parse (line : TokenLine) : Reported (Statement × Bool) :=
  let tokens := line.significant
  if tokens.any (·.kind == .unknown) then pure (⟨[], none⟩, false)
  else
    let labels := tokens.takeWhile isLabel
    match tokens.dropWhile isLabel with
    | [] => pure (⟨labels, none⟩, true)
    | head :: rest =>
      if head.kind = .directive ∨ head.kind = .instruction then
        pure (⟨labels, some ⟨head, arguments rest⟩⟩, true)
      else do
        report .unexpectedToken head.location [head.text] [.text head.describe]
        pure (⟨labels, none⟩, false)

end Statement

end MipsToolchain
