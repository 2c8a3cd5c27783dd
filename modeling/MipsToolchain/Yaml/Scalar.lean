import MipsToolchain.Text.Hex
import MipsToolchain.Yaml.Cursor

namespace MipsToolchain.Yaml

open Scan

structure Gap where
  blanks : List Char := []
  broken : Bool := false
  first : List Char := []
  further : List Char := []
deriving Repr

namespace Gap

/-- What a gap stands for. A single line break is folded into a space, and of several the first is
dropped, unless it is of a kind that is kept. -/
def fold (g : Gap) : List Char :=
  if !g.broken then g.blanks
  else match g.first, g.further with
    | ['\n'], [] => [' ']
    | ['\n'], further => further
    | first, further => first ++ further

/-- Read a gap. Blanks at the start of a line do not count, and there must be no tab in the columns
before `indent`. -/
def read (indent start : Nat) (g : Gap) : Scan Gap := do
  go ((← get).left + 1) g
where
  go : Nat → Gap → Scan Gap
    | 0, g => return g
    | fuel + 1, g => do
      match ← look 1 with
      | [] => return g
      | x :: _ =>
        if isBlank x then
          if g.broken && x = '\t' && (← get).column < indent then fail .tabIndentation start
          skip
          go fuel (if g.broken then g else { g with blanks := g.blanks ++ [x] })
        else if isBreak x then
          discard (look 2)
          let b ← lineBreak
          go fuel (if g.broken then { g with further := g.further ++ b }
            else { g with blanks := [], broken := true, first := b })
        else return g

end Gap

/-- Whether a plain scalar ends before the given text, apart from blanks and line breaks. -/
def endsPlain (inFlow : Bool) : List Char → Bool
  | [] => true
  | x :: r => (x = ':' && endsWord r) || (inFlow && x ∈ [',', '?', '[', ']', '\x7b', '\x7d'])

/-- Read a word of a plain scalar. Its characters come in reverse. -/
def readPlainWord (inFlow : Bool) : Scan (List Char) := do
  go ((← get).left + 1) []
where
  go : Nat → List Char → Scan (List Char)
    | 0, word => return word
    | fuel + 1, word => do
      match (← get).rest with
      | [] => return word
      | x :: r =>
        if endsWord (x :: r) || endsPlain inFlow (x :: r) then return word
        skip
        discard (look 2)
        go fuel (x :: word)

/-- Read a plain scalar, whose further lines are indented in a block. The result says whether it
ends behind a line break. -/
def readPlain (inFlow : Bool) (indent : Nat) : Scan (List Char × Bool) := do
  go (← line) ((← get).left + 1) [] {}
where
  go (start : Nat) : Nat → List Char → Gap → Scan (List Char × Bool)
    | 0, text, gap => return (text.reverse, gap.broken)
    | fuel + 1, text, gap => do
      let ahead ← look 4
      if (← get).atMarker || ahead.head? = some '#' then return (text.reverse, gap.broken)
      let word ← readPlainWord inFlow
      let (text, gap) :=
        if word.isEmpty then (text, gap) else (word ++ gap.fold.reverse ++ text, {})
      let rest := (← get).rest
      if rest.isEmpty || !endsWord rest then return (text.reverse, gap.broken)
      let gap ← gap.read indent start
      if !inFlow && (← get).column < indent then return (text.reverse, gap.broken)
      go start fuel text gap

def escapeOf? (c : Char) : Option Char :=
  match c with
  | '0' => some (Char.ofNat 0)
  | 'a' => some (Char.ofNat 7)
  | 'b' => some (Char.ofNat 8)
  | 't' => some '\t'
  | '\t' => some '\t'
  | 'n' => some '\n'
  | 'v' => some (Char.ofNat 11)
  | 'f' => some (Char.ofNat 12)
  | 'r' => some '\r'
  | 'e' => some (Char.ofNat 0x1b)
  | ' ' => some ' '
  | '"' => some '"'
  | '\'' => some '\''
  | '\\' => some '\\'
  | 'N' => some (Char.ofNat 0x85)
  | '_' => some (Char.ofNat 0xa0)
  | 'L' => some (Char.ofNat 0x2028)
  | 'P' => some (Char.ofNat 0x2029)
  | _ => none

def escapeDigits? (c : Char) : Option Nat :=
  match c with
  | 'x' => some 2
  | 'u' => some 4
  | 'U' => some 8
  | _ => none

def readEscape (start : Nat) (e : Option Char) : Scan Char := do
  match e.bind escapeOf?, e.bind escapeDigits? with
  | some x, _ =>
    skipN 2
    return x
  | none, some n =>
    skipN 2
    let digits := (← look n).take n
    match (if digits.length = n then Text.numeral? 16 digits else none) with
    | none => fail .badHexDigit start
    | some code =>
      if !code.isValidChar then fail .badCharacterCode start
      skipN n
      return Char.ofNat code
  | none, none => fail .unknownEscape start

/-- Read what stands between quotes, up to a gap or to the end. A line break behind a backslash
starts a gap too. The characters come in reverse. -/
def readQuotedWord (quote : Char) (start : Nat) (text : List Char) : Scan (List Char × Bool) := do
  go ((← get).left + 1) text
where
  go : Nat → List Char → Scan (List Char × Bool)
    | 0, text => return (text, false)
    | fuel + 1, text => do
      let text ← match (← get).rest with
        | [] => return (text, false)
        | x :: r =>
          if endsWord (x :: r) then return (text, false)
          if quote = '\'' && x = '\'' && r.head? = some '\'' then
            skipN 2
            pure ('\'' :: text)
          else if x = quote then return (text, false)
          else if quote = '"' && x = '\\' then
            if r.head?.any isBreak then
              discard (look 3)
              skip
              discard lineBreak
              return (text, true)
            pure ((← readEscape start r.head?) :: text)
          else
            skip
            pure (x :: text)
      discard (look 2)
      go fuel text

/-- Read a scalar in quotes, within which a quote of their kind is doubled or escaped. -/
def readQuoted (quote : Char) : Scan (List Char) := do
  let start ← line
  skip
  go start ((← get).left + 1) []
where
  go (start : Nat) : Nat → List Char → Scan (List Char)
    | 0, text => return text.reverse
    | fuel + 1, text => do
      let ahead ← look 4
      if (← get).atMarker then fail .markerInQuotes start
      if ahead.isEmpty then fail .unclosedQuote start
      let (text, escaped) ← readQuotedWord quote start text
      if (← look 1).head? = some quote then
        skip
        return text.reverse
      let gap ← Gap.read 0 start { broken := escaped }
      go start fuel (gap.fold.reverse ++ text)

inductive Chomping where
  | clip
  | strip
  | keep
deriving DecidableEq, Repr

structure BlockHeader where
  chomping : Chomping := .clip
  increment : Option Nat := none
deriving Repr

def chompingOf? : List Char → Option Chomping
  | '+' :: _ => some .keep
  | '-' :: _ => some .strip
  | _ => none

def readIncrement (start : Nat) : Scan (Option Nat) := do
  match ← look 1 with
  | x :: _ =>
    if x = '0' then fail .zeroIndentation start
    else if x.isDigit then
      skip
      return some (x.toNat - '0'.toNat)
    else return none
  | [] => return none

def readBlockHeader (start : Nat) : Scan BlockHeader := do
  match chompingOf? (← look 1) with
  | some chomping =>
    skip
    return { chomping, increment := ← readIncrement start }
  | none =>
    match ← readIncrement start with
    | none => return {}
    | some n =>
      match chompingOf? (← look 1) with
      | some chomping =>
        skip
        return { chomping, increment := some n }
      | none => return { increment := some n }

def endLine (start : Nat) : Scan Unit := do
  skipBlanks
  if (← look 1).head? = some '#' then skipLine
  let rest ← look 1
  if !(rest.isEmpty || rest.head?.any isBreak) then fail .lineEnd start
  if !rest.isEmpty then
    discard (look 2)
    discard lineBreak

/-- Read the line breaks before the next line of a block scalar. Without an indentation it is found
here: it is that of the longest line of spaces, and at least one more than that of the block. -/
def readBlockBreaks (level start : Nat) (indent : Option Nat) : Scan (List Char × Nat) := do
  let (breaks, longest) ← go ((← get).left + 1) [] 0
  return (breaks, indent.getD (max (max longest level) 1))
where
  within (column : Nat) : Bool := indent.all fun n => decide (column < n)
  spaces : Nat → Scan Unit
    | 0 => return
    | fuel + 1 => do
      if (← look 1).head? = some ' ' && within (← get).column then
        skip
        spaces fuel
  go : Nat → List Char → Nat → Scan (List Char × Nat)
    | 0, breaks, longest => return (breaks, longest)
    | fuel + 1, breaks, longest => do
      spaces ((← get).left + 1)
      let c ← get
      let longest := max longest c.column
      if within c.column && c.rest.head? = some '\t' then fail .tabInBlock start
      if c.rest.head?.any isBreak then
        discard (look 2)
        go fuel (breaks ++ (← lineBreak)) longest
      else return (breaks, longest)

structure BlockText where
  /-- The text in reverse, without the breaks at its end. -/
  text : List Char := []
  lineEnd : List Char := []
  empty : List Char := []
  blank : Bool := false

namespace BlockText

/-- Put a line behind the lines so far. A break between two lines that do not start with blanks is
folded in a folded scalar. -/
def push (folded : Bool) (b : BlockText) (word : List Char) : BlockText :=
  let blank := word.head?.any isBlank
  let join :=
    if folded && !b.blank && !blank && b.lineEnd = ['\n'] then
      if b.empty.isEmpty then [' '] else b.empty
    else b.lineEnd ++ b.empty
  { text := word.reverse ++ join.reverse ++ b.text, blank }

def chomp (b : BlockText) : Chomping → List Char
  | .strip => b.text.reverse
  | .clip => b.text.reverse ++ b.lineEnd
  | .keep => b.text.reverse ++ b.lineEnd ++ b.empty

end BlockText

def readBlock (folded : Bool) (level : Nat) : Scan (List Char) := do
  let start ← line
  skip
  let header ← readBlockHeader start
  endLine start
  let (breaks, indent) ← readBlockBreaks level start (header.increment.map (level - 1 + ·))
  discard (look 1)
  let b ← go start indent ((← get).left + 1) { empty := breaks }
  return b.chomp header.chomping
where
  go (start indent : Nat) : Nat → BlockText → Scan BlockText
    | 0, b => return b
    | fuel + 1, b => do
      let c ← get
      if c.column ≠ indent || c.rest.isEmpty then return b
      let word ← readWhile (!isBreak ·)
      discard (look 2)
      let lineEnd ← lineBreak
      let (empty, _) ← readBlockBreaks level start (some indent)
      go start indent fuel { b.push folded word with lineEnd, empty }

end MipsToolchain.Yaml
