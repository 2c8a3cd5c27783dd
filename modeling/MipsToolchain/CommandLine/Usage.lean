import MipsToolchain.CommandLine.Command

namespace MipsToolchain.CommandLine

namespace Flag

def about : Option Command → Flag → String
  | _, .all => "include whitespace and comments"
  | _, .config => "read settings from a YAML file"
  | _, .dataBase => "set address of data segment"
  | _, .entry => "set entry symbol"
  | c, .help => "help for " ++ (c.map Command.name).getD "go-mips"
  | _, .json => "report diagnostics as JSON log entries"
  | _, .noPseudo => "disable pseudo-instructions"
  | _, .order => "select byte order (big or little)"
  | _, .output => "specify output file."
  | _, .release => "Report version of this executable"
  | _, .strict => "treat warnings as errors"
  | _, .textBase => "set address of text segment"
  | _, .verbose => "increase logging verbosity"
  | _, .version => "select target architecture (mips1 ... mips32r6)"

/-- The value of a flag that is not given, where it is worth showing. -/
def default? (c : Option Command) (f : Flag) : Option String :=
  let s : Settings := {}
  match f with
  | .dataBase => some (toString s.link.dataBase)
  | .entry => some (s.link.entry.quoted)
  | .order => some s.order.name
  | .output => if c = some .assemble then none else some (Text.quoted "a.out")
  | .textBase => some (toString s.link.textBase)
  | .version => some s.version.name
  | _ => none

def pattern (f : Flag) : String :=
  let letter := match f.letter? with
    | some c => "  -" ++ String.singleton c ++ ", "
    | none => "      "
  letter ++ "--" ++ f.name ++ ((f.operand?.map (" " ++ ·)).getD "")

end Flag

def flagTable (c : Option Command) (fs : List Flag) : String :=
  let sorted := fs.mergeSort fun a b => decide (a.name ≤ b.name)
  let width := (sorted.map (·.pattern.length)).foldl max 0
  "\n".intercalate (sorted.map fun f =>
    f.pattern ++ String.ofList (List.replicate (width - f.pattern.length + 3) ' ') ++ f.about c
      ++ ((f.default? c).map fun d => " (default " ++ d ++ ")").getD "")

def Command.usage (c : Command) : String :=
  "Usage:\n  go-mips " ++ c.name ++ " [flags] " ++ c.operands
    ++ "\n\nFlags:\n" ++ flagTable (some c) c.ownFlags
    ++ "\n\nGlobal Flags:\n" ++ flagTable (some c) Flag.common ++ "\n"

def commandTable : String :=
  let entries := Command.all.map (fun c => (c.name, c.about)) ++
    [("completion", "Generate the autocompletion script for the specified shell"),
      ("help", "Help about any command")]
  let sorted := entries.mergeSort fun a b => decide (a.1 ≤ b.1)
  "\n".intercalate (sorted.map fun (n, about) =>
    "  " ++ n ++ String.ofList (List.replicate (11 - n.length) ' ') ++ " " ++ about)

def usage : String :=
  "Usage:\n  go-mips [flags]\n  go-mips [command]\n\nAvailable Commands:\n" ++ commandTable
    ++ "\n\nFlags:\n" ++ flagTable none rootFlags
    ++ "\n\nUse \"go-mips [command] --help\" for more information about a command.\n"

end MipsToolchain.CommandLine
