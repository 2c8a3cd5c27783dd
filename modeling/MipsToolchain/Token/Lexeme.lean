import MipsToolchain.Text.Letter

namespace MipsToolchain

inductive LexemeShape where
  | word
  | string
  | char
  | comment
  | whitespace
  | punctuation
deriving DecidableEq, Repr

/-- A piece of a line. A string or character literal is closed if its second quote is there. -/
structure Lexeme where
  shape : LexemeShape
  text : List Char
  column : Nat
  closed : Bool
deriving DecidableEq, Repr

namespace Lexeme

def isBlank (c : Char) : Bool := c == ' ' || c == '\t'

def isWordChar (c : Char) : Bool :=
  c == '_' || c == '.' || c == '$' || Text.isLetter c || Text.isDecimalDigit c

/-- How many characters after its first quote a literal takes, and whether it is closed. A backslash
hides the character behind it, but never the end of a line. -/
def literalExtent (quote : Char) : List Char → Nat × Bool
  | [] => (0, false)
  | '\\' :: e :: r =>
    if e = '\n' then (1, false)
    else ((literalExtent quote r).1 + 2, (literalExtent quote r).2)
  | c :: r =>
    if c = quote then (1, true)
    else if c = '\n' then (0, false)
    else ((literalExtent quote r).1 + 1, (literalExtent quote r).2)

/-- The shape of the piece that starts with a character, how many of the characters after it belong
to it, and whether it is closed. -/
def extent (c : Char) (r : List Char) : LexemeShape × Nat × Bool :=
  if isBlank c then (.whitespace, (r.takeWhile isBlank).length, true)
  else if isWordChar c then (.word, (r.takeWhile isWordChar).length, true)
  else if c = '#' then (.comment, (r.takeWhile (· ≠ '\n')).length, true)
  else if c = '"' then (.string, literalExtent '"' r)
  else if c = '\'' then (.char, literalExtent '\'' r)
  else if (c = '<' ∨ c = '>') ∧ r.head? = some c then (.punctuation, 1, true)
  else (.punctuation, 0, true)

/-- The pieces of a line that starts at a given column. Line ends inside it separate pieces. -/
def scanFrom (column : Nat) (text : List Char) : List Lexeme :=
  match text with
  | [] => []
  | c :: r =>
    if c = '\n' then scanFrom (column + 1) r
    else
      let (shape, n, closed) := extent c r
      ⟨shape, c :: r.take n, column, closed⟩ :: scanFrom (column + 1 + n) (r.drop n)
termination_by text.length
decreasing_by
  all_goals simp only [List.length_cons, List.length_drop]; omega

def scan (text : String) : List Lexeme := scanFrom 0 text.toList

end Lexeme

end MipsToolchain
