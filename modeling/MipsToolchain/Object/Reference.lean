import MipsToolchain.Object.Address

namespace MipsToolchain

/-- How a word is completed once the address that it refers to is known. -/
inductive RelocationKind where
  | absolute32
  /-- The upper half of an address that is split over two words, with a carry from the lower. -/
  | high16
  /-- The low half of a word, without carry. -/
  | low16
  | jump26
  | pcrel16
  | unassigned (code : UInt8)
deriving DecidableEq, Repr

namespace RelocationKind

def ofCode (code : UInt8) : RelocationKind :=
  match code with
  | 0 => absolute32
  | 1 => high16
  | 2 => low16
  | 3 => jump26
  | 4 => pcrel16
  | _ => unassigned code

def code : RelocationKind → UInt8
  | absolute32 => 0
  | high16 => 1
  | low16 => 2
  | jump26 => 3
  | pcrel16 => 4
  | unassigned code => code

def isAssigned : RelocationKind → Bool
  | unassigned _ => false
  | _ => true

def name : RelocationKind → String
  | absolute32 => "abs32"
  | high16 => "hi16"
  | low16 => "lo16"
  | jump26 => "jump26"
  | pcrel16 => "pcrel16"
  | unassigned code => s!"reloc({code})"

theorem ofCode_code {k : RelocationKind} (h : k.isAssigned) : ofCode k.code = k := by
  cases k <;> first | rfl | cases h

end RelocationKind

/-- A word whose contents depend on the address of a symbol or of a section. The constant part is
already stored in the word. -/
structure Reference where
  location : Address
  symbol : Name
  kind : RelocationKind
  addend : Int64
deriving DecidableEq, Repr

def Reference.render (r : Reference) : RawText :=
  let addend := if r.addend = 0 then "" else Text.signed r.addend.toInt
  (r.kind.name ++ " ") ++ r.symbol ++ (addend ++ " @ " ++ r.location.render)

end MipsToolchain
