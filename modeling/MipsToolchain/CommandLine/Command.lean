import MipsToolchain.CommandLine.Flag
import MipsToolchain.Text.RawText
import MipsToolchain.Text.LowerCase

namespace MipsToolchain.CommandLine

inductive Command where
  | assemble
  | build
  | disassemble
  | dump
  | link
  | tokens
deriving DecidableEq, Repr

namespace Command

def all : List Command := [assemble, build, disassemble, dump, link, tokens]

def name : Command → String
  | assemble => "assemble"
  | build => "build"
  | disassemble => "disasm"
  | dump => "dump"
  | link => "link"
  | tokens => "tokens"

def operands : Command → String
  | assemble | build => "source_file(s)"
  | disassemble => "object_file"
  | dump => "file"
  | link => "object_file(s)"
  | tokens => "source_file"

def accepts (c : Command) (count : Nat) : Bool :=
  match c with
  | assemble | build | link => count ≠ 0
  | disassemble | dump | tokens => count = 1

def about : Command → String
  | assemble => "assemble source files into object files."
  | build => "assemble and link source files into an executable."
  | disassemble => "disassemble an object or executable file."
  | dump => "dump the contents of a module."
  | link => "link object files into an executable."
  | tokens => "show the tokens of a source file."

def description : Command → String
  | assemble =>
    "Assemble one or more source files into object files.  Files are assembled in\n\tparallel, and "
      ++ "every problem found in every file is reported.  Unless an output is\n\tgiven, each "
      ++ "object file is named after its source file."
  | build =>
    "Assemble one or more source files, and then link the resulting modules into a\n\tsingle "
      ++ "executable image.  No object files are written."
  | disassemble =>
    "Disassemble the executable sections of an object (or executable) file.  For\n\tobject files, "
      ++ "addresses are section offsets and outstanding references are shown\n\talongside the "
      ++ "words they patch."
  | dump =>
    "Print the sections, symbols and outstanding references of a module.  The module\n\tis either "
      ++ "read from an object file or, for files ending in \".s\", assembled from source."
  | link =>
    "Link one or more object files into a single executable image.  Sections of the\n\tsame name "
      ++ "are concatenated in the order the files are given, and every reference\n\tbetween them "
      ++ "is resolved."
  | tokens =>
    "Tokenize a source file, printing each significant token along with its location and kind."

def ownFlags : Command → List Flag
  | assemble | build | link => [.help, .output]
  | disassemble | dump => [.help]
  | tokens => [.all, .help]

def flags (c : Command) : List Flag := c.ownFlags ++ Flag.common

def ofName? (s : String) : Option Command := all.find? (·.name = s)

end Command

def description : String :=
  "An assembler, linker and general toolbox for MIPS assembly language."

def rootFlags : List Flag := .help :: .release :: Flag.common

/-- Whether an argument is a flag that takes the next argument along, as far as can be told before
the command is known. -/
def takesNext (arg : String) : Bool :=
  let known := rootFlags.erase .help
  match arg.toList with
  | ['-', '-'] => false
  | '-' :: '-' :: word =>
    !word.contains '=' && !known.any fun f => f.isSwitch && f.name = String.ofList word
  | ['-', c] => c ≠ '=' && c.toNat < 128 && !known.any fun f => f.isSwitch && f.letter? = some c
  | _ => false

def isFlagLike (arg : String) : Bool := arg.toList.head? = some '-'

def firstWord? : List String → Option String
  | [] => none
  | [arg] => if arg = "--" || arg.isEmpty || isFlagLike arg then none else some arg
  | arg :: next :: rest =>
    if arg = "--" then none
    else if takesNext arg then if rest.isEmpty then none else firstWord? rest
    else if arg.isEmpty || isFlagLike arg then firstWord? (next :: rest)
    else some arg

def withoutWord (word : String) : List String → List String
  | [] => []
  | [arg] => if arg = word then [] else [arg]
  | arg :: next :: rest =>
    if arg = "--" then arg :: next :: rest
    else if takesNext arg then arg :: next :: withoutWord word rest
    else if arg = word then next :: rest
    else arg :: withoutWord word (next :: rest)

/-- The number of bytes to insert, delete or replace between two texts. -/
def editDistance (a b : List UInt8) : Nat :=
  (a.foldl (fun row x => step x row b) (List.range (b.length + 1))).getLastD 0
where
  step (x : UInt8) (row : List Nat) (b : List UInt8) : List Nat :=
    match row with
    | [] => []
    | corner :: above => (corner + 1) :: cells x corner (corner + 1) above b
  cells (x : UInt8) : Nat → Nat → List Nat → List UInt8 → List Nat
    | corner, left, up :: above, y :: b =>
      let cell := if x = y then corner else min corner (min up left) + 1
      cell :: cells x up cell above b
    | _, _, _, _ => []

def suggestions (word : String) : List String :=
  let typed := (RawText.ofString (Text.lower word)).bytes
  (Command.all.map Command.name ++ ["completion"]).filter fun n =>
    let bytes := (RawText.ofString n).bytes
    editDistance typed bytes ≤ 2 || typed.isPrefixOf bytes

structure UnknownCommand where
  word : String
deriving DecidableEq, Repr

def UnknownCommand.message (e : UnknownCommand) : String :=
  let names := suggestions e.word
  let hint := if names.isEmpty then ""
    else "\n\nDid you mean this?\n" ++ String.join (names.map fun n => "\t" ++ n ++ "\n")
  "unknown command " ++ Text.quoted e.word ++ " for \"go-mips\"" ++ hint

def findCommand (args : List String) : Except UnknownCommand (Option Command × List String) :=
  match firstWord? args with
  | none => .ok (none, args)
  | some word =>
    match Command.ofName? word with
    | some c => .ok (some c, withoutWord word args)
    | none => .error ⟨word⟩

end MipsToolchain.CommandLine
