import MipsToolchain.Text.LowerCase

namespace MipsToolchain.Isa

/-- A revision of the instruction set. Later revisions mostly extend earlier ones. -/
inductive Version where
  | mips1
  | mips2
  | mips3
  | mips4
  | mips32r1
  | mips32r2
  | mips32r6
deriving DecidableEq, Repr

namespace Version

def all : List Version := [mips1, mips2, mips3, mips4, mips32r1, mips32r2, mips32r6]

def index : Version → Nat
  | mips1 => 0
  | mips2 => 1
  | mips3 => 2
  | mips4 => 3
  | mips32r1 => 4
  | mips32r2 => 5
  | mips32r6 => 6

def name : Version → String
  | mips1 => "mips1"
  | mips2 => "mips2"
  | mips3 => "mips3"
  | mips4 => "mips4"
  | mips32r1 => "mips32r1"
  | mips32r2 => "mips32r2"
  | mips32r6 => "mips32r6"

def latest : Version := mips32r6

def standard : Version := mips32r2

/-- The name that belongs to a number, also where no revision has that number. -/
def nameOfIndex (n : Nat) : String :=
  match all[n]? with
  | some v => v.name
  | none => s!"version({n})"

end Version

structure UnknownVersion where
  text : String
deriving DecidableEq, Repr

def UnknownVersion.message (e : UnknownVersion) : String :=
  "unknown architecture version \"" ++ e.text ++ "\" (expected one of "
    ++ ", ".intercalate (Version.all.map Version.name) ++ ")"

/-- Names of versions are read without regard to case or to spaces around them. -/
def Version.parse (text : String) : Except UnknownVersion Version :=
  let key := Text.lower (Text.trim text)
  match Version.all.find? (·.name = key) with
  | some v => .ok v
  | none => .error ⟨key⟩

end MipsToolchain.Isa
