import MipsToolchain.Diagnostic.Basic

namespace MipsToolchain

inductive LogValue where
  | text (s : String)
  | int (n : Int)
  | texts (ss : List String)
deriving DecidableEq, Repr

namespace LogValue

/-- A character inside a string of the structured form, which is safe to embed in markup. -/
def escapeChar (c : Char) : List Char :=
  if c = '"' then ['\\', '"']
  else if c = '\\' then ['\\', '\\']
  else match c.toNat with
    | 8 => ['\\', 'b']
    | 9 => ['\\', 't']
    | 10 => ['\\', 'n']
    | 12 => ['\\', 'f']
    | 13 => ['\\', 'r']
    | n =>
      if n < 32 ∨ n ∈ [0x26, 0x3c, 0x3e, 0x2028, 0x2029] then
        '\\' :: 'u' :: (Text.hexPadded 4 n).toList
      else [c]

def string (s : String) : String :=
  Text.inQuotes (s.toList.flatMap escapeChar)

def structured : LogValue → String
  | text s => string s
  | int n => toString n
  | texts ss => "[" ++ ",".intercalate (ss.map string) ++ "]"

def isBare (c : Char) : Bool :=
  c.isAlphanum || c ∈ ['-', '.', '_', '/', '@', '^', '+']

/-- In the line form a value with other than plain characters stands in quotes. -/
def line (v : LogValue) : String :=
  let s := match v with
    | text s => s
    | int n => toString n
    | texts ss => "[" ++ " ".intercalate ss ++ "]"
  if s.toList.all isBare then s else Text.quoted s

end LogValue

namespace Diagnostic

def level (d : Diagnostic) : String :=
  match d.severity with
  | .error => "error"
  | .warning => "warning"
  | _ => "info"

def logFields (d : Diagnostic) : List (String × LogValue) :=
  let placed {α : Type} (xs : List α) : List α := if d.location.isValid then xs else []
  [("code", .text d.code.render)]
    ++ placed [("column", .int (d.location.column + 1)), ("file", .text d.location.file)]
    ++ [("key", .text d.key)]
    ++ placed [("line", .int d.location.line)]
    ++ (if d.tokens.isEmpty then [] else [("tokens", .texts d.tokens)])

def logStructured (d : Diagnostic) : String :=
  let head : List (String × LogValue) := [("level", .text d.level), ("msg", .text d.message.text)]
  let fields := (head ++ d.logFields).mergeSort fun a b => decide (a.1 ≤ b.1)
  "\x7b" ++ ",".intercalate (fields.map fun f => "\"" ++ f.1 ++ "\":" ++ f.2.structured) ++ "\x7d\n"

/-- A log entry as pairs on a line. An empty message is left out. -/
def logLine (d : Diagnostic) : String :=
  let message := if d.message.isEmpty then [] else [("msg", LogValue.text d.message.text)]
  let fields := ("level", LogValue.text d.level) :: message ++ d.logFields
  " ".intercalate (fields.map fun f => f.1 ++ "=" ++ f.2.line) ++ "\n"

end Diagnostic

end MipsToolchain
