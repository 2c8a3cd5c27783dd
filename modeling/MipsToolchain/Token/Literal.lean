import MipsToolchain.Scanner
import MipsToolchain.Text.Hex

namespace MipsToolchain.Literal

open Scanner

def binaryDigit : Scanner := within '0' '1'

def octalDigit : Scanner := within '0' '7'

def decimalDigit : Scanner := within '0' '9'

def hexDigit : Scanner := any [within '0' '9', within 'A' 'F', within 'a' 'f']

/-- A mark for the base, a digit, and then digits and underscores. -/
def marked (mark : String) (digit : Scanner) : Scanner :=
  sequenceOpt [sequence [caseless mark, digit], many (any [digit, unit ['_']])]

def number : Scanner :=
  any [marked "0b" binaryDigit, marked "0o" octalDigit, marked "0x" hexDigit,
    sequenceOpt [decimalDigit, many decimalDigit]]

def identifierStart : Scanner :=
  any [unit ['_'], unit ['.'], within 'a' 'z', within 'A' 'Z']

def identifierRest : Scanner :=
  any [unit ['_'], unit ['.'], unit ['$'], within '0' '9', within 'a' 'z', within 'A' 'Z']

def identifier : Scanner :=
  sequenceOpt [identifierStart, many identifierRest]

def isNumber (text : String) : Bool := number.accepts text.toList

def isIdentifier (text : String) : Bool := identifier.accepts text.toList

def baseAndDigits (cs : List Char) : Nat × List Char :=
  match cs with
  | '0' :: m :: d :: r =>
    let digits := (d :: r).filter (· ≠ '_')
    match m.toLower with
    | 'x' => (16, digits)
    | 'b' => (2, digits)
    | 'o' => (8, digits)
    | _ => (10, cs)
  | _ => (10, cs)

/-- The value of an integer literal. Numbers below 2^64 wrap around. -/
def integer? (text : String) : Option Int64 :=
  if isNumber text then
    let (base, digits) := baseAndDigits text.toList
    match Text.numeral? base digits with
    | some n => if n < 0x10000000000000000 then some (Int64.ofNat n) else none
    | none => none
  else none

def escape? (c : Char) : Option Char :=
  match c with
  | 'n' => some '\n'
  | 't' => some '\t'
  | 'r' => some '\r'
  | '0' => some (Char.ofNat 0)
  | 'a' => some (Char.ofNat 7)
  | 'b' => some (Char.ofNat 8)
  | 'f' => some (Char.ofNat 12)
  | 'v' => some (Char.ofNat 11)
  | '\\' => some '\\'
  | '"' => some '"'
  | '\'' => some '\''
  | _ => none

/-- Whether an odd number of backslashes stands at the end of some text. -/
def endsEscaping (cs : List Char) : Bool :=
  (cs.reverse.takeWhile (· = '\\')).length % 2 == 1

def body : List Char → List Char
  | [] => []
  | q :: r =>
    if r.getLast? = some q && !endsEscaping r.dropLast then r.dropLast else r

/-- Resolve escapes. Beside the text stand the positions of the backslashes of unknown escapes,
which count from `position`. An unknown escape stands for its second character. -/
def resolve (position : Nat) : List Char → List Char × List Nat
  | [] => ([], [])
  | '\\' :: e :: r =>
    let (text, unknown) := resolve (position + 2) r
    match escape? e with
    | some c => (c :: text, unknown)
    | none => (e :: text, position :: unknown)
  | c :: r =>
    let (text, unknown) := resolve (position + 1) r
    (c :: text, unknown)

/-- The text that a string or character literal denotes, and where its unknown escapes are. -/
def unquote (literal : String) : String × List Nat :=
  let (text, unknown) := resolve 1 (body literal.toList)
  (String.ofList text, unknown)

end MipsToolchain.Literal
