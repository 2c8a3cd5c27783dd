import MipsToolchain.Diagnostic.Problem
import MipsToolchain.Fault
import MipsToolchain.Source.File
import MipsToolchain.Text.RawText

namespace MipsToolchain

inductive MessageArg where
  | text (s : RawText)
  | int (n : Int)
  | bool (b : Bool)
deriving DecidableEq, Repr

namespace MessageArg

def render : MessageArg → RawText
  | text s => s
  | int n => toString n
  | bool b => toString b

/-- The character with a given number, or U+FFFD where there is none. -/
def charOf (n : Int) : Char :=
  if 0 ≤ n ∧ n.toNat.isValidChar then Char.ofNat n.toNat else Char.ofNat 0xfffd

def renderChar : MessageArg → RawText
  | int n => String.singleton (charOf n)
  | a => a.render

def renderQuoted : MessageArg → String
  | int n => Text.quotedChar (charOf n)
  | a => a.render.quoted

def renderHex : MessageArg → RawText
  | int n => Text.markedHex n
  | text s => if s.isEmpty then "" else "0x" ++ String.ofList (s.bytes.flatMap Text.hexByte)
  | a => a.render

end MessageArg

def fillTemplate : List Char → List MessageArg → RawText
  | '%' :: '#' :: 'x' :: r, a :: as => a.renderHex ++ fillTemplate r as
  | '%' :: 'c' :: r, a :: as => a.renderChar ++ fillTemplate r as
  | '%' :: 'q' :: r, a :: as => a.renderQuoted ++ fillTemplate r as
  | '%' :: 's' :: r, a :: as => a.render ++ fillTemplate r as
  | '%' :: 'd' :: r, a :: as => a.render ++ fillTemplate r as
  | c :: r, as => String.singleton c ++ fillTemplate r as
  | [], _ => .empty

structure ProblemCode where
  provider : String
  number : Nat
deriving DecidableEq, Repr

def ProblemCode.render (c : ProblemCode) : String :=
  c.provider ++ Text.zeroPadded 4 (toString c.number)

structure Diagnostic where
  severity : Severity
  code : ProblemCode
  key : String
  location : Source.Location
  tokens : List String
  args : List MessageArg
deriving DecidableEq, Repr

namespace Diagnostic

def of (p : Problem) (location : Source.Location) (tokens : List String)
    (args : List MessageArg) : Diagnostic :=
  ⟨p.entry.severity, ⟨p.entry.provider, p.entry.number⟩, p.entry.key, location, tokens, args⟩

@[simp]
theorem severity_of (p : Problem) (l : Source.Location) (ts : List String) (as : List MessageArg) :
    (of p l ts as).severity = p.severity := rfl

/-- The wording of a diagnostic. A key without a template is shown with its arguments. -/
def message (d : Diagnostic) : RawText :=
  match Problem.template? d.key with
  | some template => fillTemplate template.toList d.args
  | none => d.key ++ RawText.join (d.args.map fun a => " " ++ a.render)

def isError (d : Diagnostic) : Bool := d.severity == .error

def isWarning (d : Diagnostic) : Bool := d.severity == .warning

def promote (d : Diagnostic) : Diagnostic :=
  { d with severity := d.severity.promote }

def errorCount (ds : List Diagnostic) : Nat := ds.countP isError

def warningCount (ds : List Diagnostic) : Nat := ds.countP isWarning

def countOf (code : ProblemCode) (ds : List Diagnostic) : Nat := ds.countP (·.code = code)

/-- Diagnostics as they leave a tool that may treat warnings as errors. -/
def promoteIf (strict : Bool) (ds : List Diagnostic) : List Diagnostic :=
  if strict then ds.map promote else ds

@[simp]
theorem promoteIf_false (ds : List Diagnostic) : promoteIf false ds = ds := rfl

@[simp]
theorem promoteIf_append (strict : Bool) (ds es : List Diagnostic) :
    promoteIf strict (ds ++ es) = promoteIf strict ds ++ promoteIf strict es := by
  cases strict <;> simp [promoteIf]

theorem isError_promote (d : Diagnostic) :
    d.promote.isError = (d.isError || d.isWarning) := by
  rcases d with ⟨s, _, _, _, _, _⟩
  cases s <;> rfl

end Diagnostic

end MipsToolchain
