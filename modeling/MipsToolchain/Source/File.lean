namespace MipsToolchain.Source

/-- A place in a source file. Lines count from one and columns, in characters, from zero. A line
that is not positive stands for no place at all. -/
structure Location where
  file : String
  line : Int
  column : Int
deriving DecidableEq, Repr

namespace Location

def none : Location := ⟨"", 0, 0⟩

instance : Inhabited Location := ⟨none⟩

def isValid (l : Location) : Bool := decide (0 < l.line)

def shift (l : Location) (columns : Nat) : Location :=
  { l with column := l.column + columns }

def render (l : Location) : String :=
  let place := toString l.line ++ ":" ++ toString (l.column + 1)
  if l.file.isEmpty then place else l.file ++ ":" ++ place

end Location

structure File where
  name : String
  lines : List String
deriving DecidableEq, Repr

namespace File

/-- Carriage returns right before a line feed are no part of the text. -/
def unixLines : List Char → List Char
  | '\r' :: '\n' :: r => '\n' :: unixLines r
  | c :: r => c :: unixLines r
  | [] => []

def splitLines : List Char → List (List Char)
  | [] => [[]]
  | c :: r =>
    if c = '\n' then [] :: splitLines r
    else match splitLines r with
      | [] => [[c]]
      | l :: ls => (c :: l) :: ls

/-- A last line that is empty does not count, since a final terminator starts no line. -/
def dropLastEmpty (ls : List (List Char)) : List (List Char) :=
  if ls.getLast? = some [] then ls.dropLast else ls

def ofText (name text : String) : File :=
  ⟨name, (dropLastEmpty (splitLines (unixLines text.toList))).map String.ofList⟩

def lineCount (f : File) : Nat := f.lines.length

def line? (f : File) (number : Int) : Option String :=
  if number < 1 then none else f.lines[(number - 1).toNat]?

end File

end MipsToolchain.Source
