import MipsToolchain.Diagnostic.Reported
import MipsToolchain.Source.File
import MipsToolchain.Token.Basic
import MipsToolchain.Token.Lexeme
import MipsToolchain.Token.Literal

namespace MipsToolchain

namespace Lexeme

def string (l : Lexeme) : String := String.ofList l.text

/-- Report the first character that keeps a word from being an identifier. -/
def reportOffender (l : Lexeme) (loc : Source.Location) : Reported Unit :=
  let bad (k : Nat) : Bool := !Literal.isIdentifier (String.ofList (l.text.take (k + 1)))
  match (List.range l.text.length).find? bad with
  | none => pure ()
  | some k =>
    let c := String.ofList ((l.text.drop k).take 1)
    report .unexpectedCharacter (loc.shift k) [c] [.text c]

/-- The kind of a word. Before the directive or instruction of a line it can also be a label, if a
colon follows, or that directive or instruction itself. -/
def wordKind (l : Lexeme) (loc : Source.Location) (started colon : Bool) : Reported TokenKind :=
  let first := l.text.head?
  if first = some '$' then pure .register
  else if first.any Text.isDecimalDigit then
    if Literal.isNumber l.string then pure .immediate
    else do
      report .malformedNumber loc [l.string] [.text l.string]
      pure .unknown
  else if !Literal.isIdentifier l.string then do
    l.reportOffender loc
    pure .unknown
  else if started then pure .identifier
  else if colon then pure .label
  else if first = some '.' then pure .directive
  else pure .instruction

def operators : List String := ["+", "-", "*", "/", "%", "&", "|", "^", "~", "<<", ">>"]

def punctuationKind (l : Lexeme) (loc : Source.Location) : Reported TokenKind :=
  if l.text = [','] then pure .comma
  else if l.text = ['('] then pure .lparen
  else if l.text = [')'] then pure .rparen
  else if l.string ∈ operators then pure .operator
  else do
    report .unexpectedCharacter loc [l.string] [.text l.string]
    pure .unknown

def checkLiteral (l : Lexeme) (loc : Source.Location) : Reported Unit := do
  unless l.closed do
    report (if l.shape = .char then .unterminatedChar else .unterminatedString) loc [l.string] []
  let (text, unknown) := Literal.unquote l.string
  unknown.forM fun k => do
    let shown := (l.text.drop k).take 2
    let code := (shown.getLast?.getD ' ').toNat
    report .invalidEscape (loc.shift k) [String.ofList shown] [.int code]
  if l.shape = .char ∧ l.closed ∧ text.length ≠ 1 then
    report .invalidCharLiteral loc [l.string] []

def kind (l : Lexeme) (loc : Source.Location) (started colon : Bool) : Reported TokenKind :=
  match l.shape with
  | .whitespace => pure .whitespace
  | .comment => pure .comment
  | .string => do
    l.checkLiteral loc
    pure .string
  | .char => do
    l.checkLiteral loc
    pure .char
  | .punctuation => l.punctuationKind loc
  | .word => l.wordKind loc started colon

/-- The tokens of a line from its pieces. A label takes the colon behind it along. -/
def classify (file : String) (number : Int) (started : Bool) (ls : List Lexeme) :
    Reported (List Token) :=
  match ls with
  | [] => pure []
  | l :: rest => do
    let loc : Source.Location := ⟨file, number, l.column⟩
    let colon := (rest.head?.map (·.text)) = some [':']
    let k ← l.kind loc started colon
    let started' := started || k == .directive || k == .instruction
    let tokens ← classify file number started' (if k = .label then rest.tail else rest)
    pure (⟨l.string, k, loc⟩ :: tokens)
termination_by ls.length
decreasing_by
  split
  · simp only [List.length_tail, List.length_cons]; omega
  · simp only [List.length_cons]; omega

end Lexeme

/-- The tokens of a line of text. This always succeeds, if need be with unknown tokens. -/
def tokenizeLine (file : String) (number : Int) (text : String) : Reported TokenLine := do
  let tokens ← Lexeme.classify file number false (Lexeme.scan text)
  pure ⟨file, number, text, tokens⟩

def tokenizeLines (file : String) (number : Int) : List String → Reported (List TokenLine)
  | [] => pure []
  | l :: ls => do
    let line ← tokenizeLine file number l
    let lines ← tokenizeLines file (number + 1) ls
    pure (line :: lines)

def tokenizeFile (f : Source.File) : Reported (List TokenLine) := tokenizeLines f.name 1 f.lines

end MipsToolchain
