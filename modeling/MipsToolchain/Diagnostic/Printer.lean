import MipsToolchain.Diagnostic.Basic
import MipsToolchain.Source.File
import MipsToolchain.Text.Ansi

namespace MipsToolchain.Diagnostic

def escape : Severity → Text.Ansi
  | .error => Text.Ansi.plain.bold.foreground Text.Ansi.red
  | .warning => Text.Ansi.plain.bold.foreground Text.Ansi.yellow
  | _ => Text.Ansi.plain.foreground Text.Ansi.cyan

def indentation (line : String) (column : Int) : String :=
  String.ofList ((line.toList.take column.toNat).map fun c => if c = '\t' then '\t' else ' ')

/-- A mark is as wide as the first token concerned, and at least one character. -/
def markWidth (d : Diagnostic) : Nat :=
  match d.tokens with
  | [] => 1
  | t :: _ => max 1 t.length

/-- The source line of a diagnostic. Of several files of one name the last counts. -/
def sourceLine? (files : List Source.File) (d : Diagnostic) : Option String := do
  let file ← files.reverse.find? (·.name = d.location.file)
  file.line? d.location.line

def print (colour : Bool) (files : List Source.File) (d : Diagnostic) : RawText :=
  let severity := Text.Ansi.wrap colour (escape d.severity) d.severity.name
  let place := if d.location.isValid then d.location.render ++ ": " else ""
  let head := (place ++ severity ++ "[" ++ d.code.render ++ "]: ") ++ d.message ++ "\n"
  match sourceLine? files d with
  | none => head
  | some line =>
    let mark := String.ofList (List.replicate (markWidth d) '^')
    head ++ (line ++ "\n" ++ indentation line d.location.column
      ++ Text.Ansi.wrap colour (escape d.severity) mark ++ "\n")

def printAll (colour : Bool) (files : List Source.File) (ds : List Diagnostic) : RawText :=
  RawText.join (ds.map (print colour files))

end MipsToolchain.Diagnostic
