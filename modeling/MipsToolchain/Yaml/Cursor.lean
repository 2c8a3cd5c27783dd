import MipsToolchain.Yaml.Encoding

namespace MipsToolchain.Yaml

/-- A place in a document. Lines and columns count from zero. -/
structure Cursor where
  rest : List Char := []
  blocks : List Block := []
  /-- How often the end of the text has been found where more was wanted. -/
  ends : Nat := 0
  /-- Whether the characters at hand began with a byte order mark when some were last added. -/
  marked : Bool := false
  /-- A defect that was seen ahead, but not reached. -/
  noted : Option Problem := none
  size : Nat := 0
  index : Nat := 0
  line : Nat := 0
  column : Nat := 0
  /-- Whether only blanks stand between the last line break and this place. -/
  fresh : Bool := false
deriving Repr

def byteOrderMark : Char := '\ufeff'

def isBreak (c : Char) : Bool :=
  c = '\n' || c = '\r' || c = '\x85' || c = '\u2028' || c = '\u2029'

def isBlank (c : Char) : Bool := c = ' ' || c = '\t'

def endsWord : List Char → Bool
  | [] => true
  | c :: _ => isBlank c || isBreak c

def isIndicator (c : Char) : Bool :=
  c ∈ ['#', ',', '[', ']', '\x7b', '\x7d', '&', '*', '!', '|', '>', '\'', '"', '%', '@', '\x60']

def isNameChar (c : Char) : Bool := c.isAlphanum || c = '_' || c = '-'

namespace Cursor

def ofBytes (bytes : List UInt8) : Cursor :=
  let blocks := Block.ofBytes bytes
  { blocks, size := blocks.foldl (fun n b => n + b.chars.length) 0 }

def left (c : Cursor) : Nat := c.size - c.index

/-- Whether a number of characters is at hand. The end counts as one each time it was found. -/
def has (c : Cursor) (n : Nat) : Bool := n ≤ (c.rest.take n).length + c.ends

/-- Add blocks until a number of characters is at hand, or a defect or the end is found. -/
def load (n : Nat) (c : Cursor) : Cursor × Option Problem :=
  let (c, defect) := go c c.blocks
  ({ c with marked := c.rest.head? = some byteOrderMark }, defect)
where
  go (c : Cursor) : List Block → Cursor × Option Problem
    | [] => ({ c with blocks := [], ends := c.ends + 1 }, none)
    | b :: bs =>
      let c := { c with rest := c.rest ++ b.chars, blocks := bs }
      match b.defect with
      | some p => ({ c with blocks := [.ofDefect p] }, some p)
      | none => if c.has n then (c, none) else go c bs

def next (c : Cursor) : Cursor :=
  let c' := { c with index := c.index + 1, column := c.column + 1 }
  match c.rest with
  | x :: r => { c' with rest := r, fresh := c.fresh && isBlank x }
  | [] => { c' with ends := c.ends - 1, fresh := false }

/-- Step over a line break, and tell what it stands for in a text. Most breaks are alike. -/
def nextLine (c : Cursor) : List Char × Cursor :=
  let below (r : List Char) (n : Nat) : Cursor :=
    { c with rest := r, index := c.index + n, line := c.line + 1, column := 0, fresh := true }
  match c.rest with
  | '\r' :: '\n' :: r => (['\n'], below r 2)
  | x :: r =>
    if isBreak x then ([if x = '\u2028' || x = '\u2029' then x else '\n'], below r 1) else ([], c)
  | [] => ([], c)

def atMarker (c : Cursor) : Bool :=
  c.column = 0 &&
    match c.rest with
    | '-' :: '-' :: '-' :: r => endsWord r
    | '.' :: '.' :: '.' :: r => endsWord r
    | _ => false

end Cursor

abbrev Scan := StateT Cursor (Except SyntaxError)

namespace Scan

/-- The characters ahead, at least `n` of them unless the text ends before. -/
def look (n : Nat) : Scan (List Char) := do
  let c ← get
  if c.has n then return c.rest
  match c.load n with
  | (c, none) =>
    set c
    return c.rest
  | (_, some p) => throw (.ofText p)

/-- Whether the text can be looked at for `n` characters. If not, this is noted, and reading goes on
as far as it can. -/
def glance (n : Nat) : Scan Bool := do
  let c ← get
  if c.has n then return true
  let (c, defect) := c.load n
  set { c with noted := c.noted <|> defect }
  return defect.isNone

def settle : Scan Unit := do
  if let some p := (← get).noted then throw (.ofText p)

def fail {α : Type} (p : Problem) (start : Nat) : Scan α := do
  throw (.ofWord p start (← get).line)

def line : Scan Nat := return (← get).line

def skip : Scan Unit := modify Cursor.next

def skipN : Nat → Scan Unit
  | 0 => return
  | n + 1 => do
    skip
    skipN n

def lineBreak : Scan (List Char) := modifyGet Cursor.nextLine

def readWhile (p : Char → Bool) : Scan (List Char) := do
  go ((← get).left + 1) []
where
  go : Nat → List Char → Scan (List Char)
    | 0, read => return read.reverse
    | fuel + 1, read => do
      match ← look 1 with
      | x :: _ =>
        if p x then
          skip
          go fuel (x :: read)
        else return read.reverse
      | [] => return read.reverse

def skipBlanks : Scan Unit := discard (readWhile isBlank)

def skipLine : Scan Unit := discard (readWhile (!isBreak ·))

/-- How far a comment is away, if only characters of a kind stand before it. -/
def commentAfter? (p : Char → Bool) (start : Nat) : Scan (Option Nat) :=
  go (Block.size - start) start
where
  go : Nat → Nat → Scan (Option Nat)
    | 0, _ => return none
    | fuel + 1, n => do
      if !(← glance (n + 1)) then return none
      match (← get).rest[n]? with
      | some x => if p x then go fuel (n + 1) else return if x = '#' then some n else none
      | none => return none

def skipLineComment : Scan Unit := do
  unless (← get).fresh do
    if let some n ← commentAfter? isBlank 0 then
      skipN n
      skipLine

def skipTo (index : Nat) : Scan Unit := do
  go ((← get).left + 1)
where
  go : Nat → Scan Unit
    | 0 => return
    | fuel + 1 => do
      if (← get).index < index then
        if (← look 1).head?.any isBreak then
          discard (look 2)
          discard lineBreak
        else skip
        go fuel

def isNarrow (c : Char) : Bool := isBlank c || c = '\n' || c = '\r'

/-- Step over a comment, and over the comments on the lines below it. They are looked for only if
all that stands between takes one byte a character. -/
def skipComments : Scan Unit := do
  go ((← get).left + 1)
where
  go : Nat → Scan Unit
    | 0 => return
    | fuel + 1 => do
      skipLine
      if (← get).rest.head?.all isNarrow then
        if let some n ← commentAfter? isNarrow 1 then
          skipTo ((← get).index + n)
          go fuel

/-- Step over the spaces at the start of a token. Where a key may stand, tabs are no such spaces. -/
def skipSpaces (tabs : Bool) : Scan Unit :=
  discard (readWhile fun x => x = ' ' || (x = '\t' && tabs))

/-- Move to the next token, and tell whether a key may start there. In a block each line may start
with a key. -/
def toToken (inFlow keys : Bool) : Scan Bool := do
  go ((← get).left + 2) keys
where
  go : Nat → Bool → Scan Bool
    | 0, keys => return keys
    | fuel + 1, keys => do
      discard (look 1)
      if (← get).column = 0 && (← get).marked then skip
      skipSpaces (inFlow || !keys)
      if (← get).rest.head? = some '#' then skipComments
      if (← get).rest.head?.any isBreak then
        discard (look 2)
        discard lineBreak
        go fuel (keys || !inFlow)
      else return keys

end Scan

end MipsToolchain.Yaml
