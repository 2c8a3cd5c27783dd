import MipsToolchain.Yaml.Cursor
import MipsToolchain.Yaml.Value

namespace MipsToolchain.Yaml

def isSexagesimal (text : String) : Bool :=
  match (splitSign text.toList).2 with
  | d :: r => d.isDigit && groups (r.length + 1) false (r.dropWhile fun c => c.isDigit || c = '_')
  | [] => false
where
  groups : Nat → Bool → List Char → Bool
    | 0, _, _ => false
    | fuel + 1, seen, cs =>
      match cs with
      | [] => seen
      | '.' :: r => seen && r.all fun c => c.isDigit || c = '_'
      | ':' :: a :: b :: r =>
        if a.isDigit && b.isDigit then decide (a < '6') && groups fuel true r
        else a.isDigit && groups fuel true (b :: r)
      | [':', a] => a.isDigit
      | _ => false

def isShown (c : Char) : Bool :=
  let n := c.toNat
  n = 10 || (decide (0x20 ≤ n) && decide (n ≤ 0x7e))
    || (decide (0xa0 ≤ n) && decide (n ≤ 0xfffd) && n ≠ 0xfeff)

def startsBlank (cs : List Char) : Bool :=
  match cs with
  | [] => true
  | c :: _ => c = ' ' || c = '\t'

/-- Whether an indicator inside text would end a plain scalar. -/
def hasIndicator : Bool → List Char → Bool
  | _, [] => false
  | blankBefore, c :: r =>
    (c = ':' && startsBlank r) || (c = '#' && blankBefore)
      || hasIndicator (c = ' ' || c = '\t' || isBreak c) r

def startsWithIndicator (cs : List Char) : Bool :=
  match cs with
  | '-' :: '-' :: '-' :: _ => true
  | '.' :: '.' :: '.' :: _ => true
  | c :: r => isIndicator c || (c ∈ ['?', ':', '-'] && startsBlank r)
  | [] => false

def hasPair (p q : Char → Bool) : List Char → Bool
  | a :: b :: r => (p a && q b) || hasPair p q (b :: r)
  | _ => false

def hasSpecial (cs : List Char) : Bool := cs.any fun c => c ≠ '\t' && !isShown c

def fitsPlain (cs : List Char) : Bool :=
  cs.head? ≠ some ' ' && cs.getLast? ≠ some ' ' && !cs.any isBreak && !cs.contains '\t'
    && !hasSpecial cs && !startsWithIndicator cs && !hasIndicator true cs

def fitsSingleQuotes (cs : List Char) : Bool :=
  !hasPair isBreak (· = ' ') cs && !hasPair (· = ' ') isBreak cs && !cs.contains '\t'
    && !hasSpecial cs

def fitsLiteral (cs : List Char) : Bool :=
  cs.getLast? ≠ some ' ' && !hasPair (· = ' ') isBreak cs && !hasSpecial cs

def upperHex (width n : Nat) : List Char :=
  ((Text.hexPadded width n).toList).map Char.toUpper

def escape (c : Char) : List Char :=
  '\\' :: match c.toNat with
    | 0 => ['0']
    | 7 => ['a']
    | 8 => ['b']
    | 9 => ['t']
    | 10 => ['n']
    | 11 => ['v']
    | 12 => ['f']
    | 13 => ['r']
    | 0x1b => ['e']
    | 0x22 => ['"']
    | 0x5c => ['\\']
    | 0x85 => ['N']
    | 0xa0 => ['_']
    | 0x2028 => ['L']
    | 0x2029 => ['P']
    | n =>
      if n ≤ 0xff then 'x' :: upperHex 2 n
      else if n ≤ 0xffff then 'u' :: upperHex 4 n
      else 'U' :: upperHex 8 n

def escaped (c : Char) : List Char :=
  if isShown c && !isBreak c && c ≠ '"' && c ≠ '\\' then [c] else escape c

/-- Text in double quotes. Behind a byte order mark at its start every character is escaped. -/
def doubleQuoted (cs : List Char) : List Char :=
  let body := if cs.head? = some byteOrderMark then cs.flatMap escape else cs.flatMap escaped
  '"' :: body ++ ['"']

/-- Text in single quotes. What follows a line break is indented. -/
def singleQuoted (indent : Nat) (cs : List Char) : List Char := '\'' :: go false cs ++ ['\'']
where
  go : Bool → List Char → List Char
    | _, [] => []
    | fresh, c :: r =>
      if isBreak c then c :: go true r
      else
        (if fresh then List.replicate indent ' ' else []) ++ (if c = '\'' then [c, c] else [c])
          ++ go false r

/-- How the lines below a mark end: with one break, without any, or with all that follow. -/
def endMark (cs : List Char) : List Char :=
  match cs.reverse with
  | [] => ['-']
  | a :: r =>
    if !isBreak a then ['-'] else if r.head?.all isBreak then ['+'] else []

/-- Text as indented lines below a mark, which says how the text begins and ends. A line break at
the start of the text is the one that ends the mark. -/
def literal (indent : Nat) (cs : List Char) : List Char :=
  let start := if cs.head?.any fun c => c = ' ' || isBreak c then ['4'] else []
  '|' :: start ++ endMark cs ++ lines true false cs
where
  lines : (fresh below : Bool) → List Char → List Char
    | _, below, [] => if below then [] else ['\n']
    | fresh, below, c :: r =>
      if isBreak c then c :: lines true true r
      else
        (if fresh then (if below then [] else ['\n']) ++ List.replicate indent ' ' else [])
          ++ c :: lines false false r

/-- Text as a scalar that reads back as that text, and the end of its line. -/
def scalarText (indent : Nat) (text : String) : List Char :=
  let cs := text.toList
  let quoted := doubleQuoted cs ++ ['\n']
  let misread :=
    Value.ofPlain text ≠ .text text || isSexagesimal text || (Value.truth? text).isSome
  if cs.contains '\n' then if fitsLiteral cs then literal indent cs else quoted
  else if misread then quoted
  else if fitsPlain cs then cs ++ ['\n']
  else if fitsSingleQuotes cs then singleQuoted indent cs ++ ['\n']
  else quoted

def broken (width : Nat) : Nat → List Char → List Char
  | 0, _ => []
  | fuel + 1, cs =>
    if cs.isEmpty then []
    else cs.take width ++ '\n' :: broken width fuel (cs.drop width)

def binaryText (indent : Nat) (bytes : List UInt8) : List Char :=
  let digits := Text.Base64.encode bytes
  "!!binary ".toList ++
    if digits.length < 70 then digits ++ ['\n'] else literal indent (broken 70 digits.length digits)

def rawText (indent : Nat) (t : RawText) : String :=
  String.ofList
    (if RawText.isText t.bytes then scalarText indent t.text else binaryText indent t.bytes)

end MipsToolchain.Yaml
