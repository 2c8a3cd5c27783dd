import MipsToolchain.Fault
import MipsToolchain.Token.Lexeme

namespace MipsToolchain

/-- A scan over the characters of a line by position, one character at a time. It finds the same
pieces as `Lexeme.scan`, but looks characters up, so that positions have to be right. -/
structure LineScan where
  /-- The shape of the piece that the scan is in the middle of. -/
  phase : Option LexemeShape := none
  start : Nat := 0
  position : Nat := 0
  lexemes : List Lexeme := []
deriving DecidableEq, Repr

namespace LineScan

def enter (s : LineScan) (shape : LexemeShape) : LineScan :=
  { s with phase := some shape, start := s.position, position := s.position + 1 }

def advance (s : LineScan) (n : Nat) : LineScan := { s with position := s.position + n }

def emit (s : LineScan) (cs : List Char) (shape : LexemeShape) (stop : Nat) (closed : Bool)
    (next : Nat) : Except Fault LineScan :=
  if s.start ≤ stop ∧ stop ≤ cs.length then
    let text := (cs.drop s.start).take (stop - s.start)
    .ok ⟨none, s.start, next, s.lexemes ++ [⟨shape, text, s.start, closed⟩]⟩
  else .error .outOfRange

def stepBegin (cs : List Char) (s : LineScan) (c : Char) : Except Fault LineScan :=
  let s := { s with start := s.position }
  let single := s.emit cs .punctuation (s.position + 1) true (s.position + 1)
  if c = '\n' then .ok (s.advance 1)
  else if Lexeme.isBlank c then .ok (s.enter .whitespace)
  else if Lexeme.isWordChar c then .ok (s.enter .word)
  else if c = '#' then .ok (s.enter .comment)
  else if c = '"' then .ok (s.enter .string)
  else if c = '\'' then .ok (s.enter .char)
  else if c = '<' ∨ c = '>' then do
    let second ← elementAt cs (s.position + 1)
    if second = c then s.emit cs .punctuation (s.position + 2) true (s.position + 2) else single
  else single

def stepLiteral (cs : List Char) (s : LineScan) (shape : LexemeShape) (quote c : Char) :
    Except Fault LineScan :=
  if c = '\\' then do
    let hidden ← elementAt cs (s.position + 1)
    return s.advance (if hidden = '\n' then 1 else 2)
  else if c = quote then s.emit cs shape (s.position + 1) true (s.position + 1)
  else if c = '\n' then s.emit cs shape s.position false (s.position + 1)
  else .ok (s.advance 1)

def step (cs : List Char) (s : LineScan) : Except Fault LineScan := do
  let c ← elementAt cs s.position
  match s.phase with
  | none => s.stepBegin cs c
  | some .word =>
    if Lexeme.isWordChar c then return s.advance 1
    else s.emit cs .word s.position true s.position
  | some .whitespace =>
    if Lexeme.isBlank c then return s.advance 1
    else s.emit cs .whitespace s.position true s.position
  | some .comment =>
    if c = '\n' then s.emit cs .comment s.position true (s.position + 1)
    else return s.advance 1
  | some .string => s.stepLiteral cs .string '"' c
  | some .char => s.stepLiteral cs .char '\'' c
  | some .punctuation => .error .unreachable

def run (cs : List Char) : Nat → LineScan → Except Fault LineScan
  | fuel, s =>
    if s.position < cs.length then
      match fuel with
      | 0 => .error .unreachable
      | fuel + 1 => do
        let s ← s.step cs
        run cs fuel s
    else .ok s

/-- The pieces of a line. The line end behind it finishes the last of them. -/
def scan (text : String) : Except Fault (List Lexeme) := do
  let cs := text.toList ++ ['\n']
  let s ← run cs (2 * cs.length) {}
  return s.lexemes

end LineScan

end MipsToolchain
