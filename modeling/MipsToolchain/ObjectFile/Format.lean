import MipsToolchain.Object.Relocate

namespace MipsToolchain.ObjectFile

def magic : UInt16 := 0x4d53

def formatVersion : UInt16 := 1

def headerSize : Nat := 52

def executableFlag : UInt32 := 1

def littleFlag : UInt32 := 2

structure Header where
  magic : UInt16
  version : UInt16
  flags : UInt32
  entry : UInt32
  /-- The sizes of the standard sections in their order. -/
  sizes : List UInt32
  relocations : UInt32
  references : UInt32
  definitions : UInt32
  strings : UInt32
deriving DecidableEq, Repr

namespace Header

def isExecutable (h : Header) : Bool := h.flags &&& executableFlag != 0

def order (h : Header) : ByteOrder := if h.flags &&& littleFlag != 0 then .little else .big

end Header

/-- Numbers in headers and tables have their high bytes first. -/
def bytes16 (n : UInt16) : List UInt8 := ByteOrder.big.halfBytes n

def bytes32 (n : UInt32) : List UInt8 := ByteOrder.big.wordBytes n

def Header.encode (h : Header) : List UInt8 :=
  bytes16 h.magic ++ bytes16 h.version ++ bytes32 h.flags ++ bytes32 h.entry
    ++ h.sizes.flatMap bytes32 ++ bytes32 h.relocations ++ bytes32 h.references
    ++ bytes32 h.definitions ++ bytes32 h.strings

/-- The number of a standard section in a file. Zero stands for no section. -/
def sectionId : StandardSection → UInt8
  | .text => 1
  | .rodata => 2
  | .data => 3
  | .sdata => 4
  | .sbss => 5
  | .bss => 6

def sectionOfId? (id : UInt8) : Option StandardSection :=
  StandardSection.all.find? (sectionId · = id)

theorem sectionOfId?_sectionId (s : StandardSection) : sectionOfId? (sectionId s) = some s := by
  cases s <;> decide

/-- Sections that are all zero have no contents in a file. -/
def hasContents : StandardSection → Bool
  | .sbss | .bss => false
  | _ => true

def definedFlag : UInt32 := 0x10

/-- The flag of an entry for the address of a section. -/
def sectionStartFlag : UInt32 := 0x80

/-- An entry for a symbol, or for a word that refers to one. -/
structure SymbolEntry where
  flags : UInt32
  value : UInt32
  nameIndex : UInt32
  /-- Which of the linked modules defines the symbol. -/
  objectIndex : UInt16
deriving DecidableEq, Repr

namespace SymbolEntry

def size : Nat := 16

def sectionId (e : SymbolEntry) : UInt8 := (e.flags &&& 0xf).toUInt8

def kind (e : SymbolEntry) : UInt8 := (e.flags >>> 8 &&& 0xf).toUInt8

def binding (e : SymbolEntry) : UInt8 := (e.flags >>> 5 &&& 3).toUInt8

def isDefined (e : SymbolEntry) : Bool := e.flags &&& definedFlag != 0

def isSectionStart (e : SymbolEntry) : Bool := e.flags &&& sectionStartFlag != 0

def encode (e : SymbolEntry) : List UInt8 :=
  bytes32 e.flags ++ bytes32 e.value ++ bytes32 e.nameIndex ++ bytes16 e.objectIndex ++ [0, 0]

@[simp]
theorem length_encode (e : SymbolEntry) : e.encode.length = size := by
  simp [encode, bytes32, bytes16, size]

end SymbolEntry

structure RelocationEntry where
  address : UInt32
  sectionId : UInt8
  /-- The kind in the low half, and in the high half the section that the word depends on. -/
  type : UInt8
deriving DecidableEq, Repr

namespace RelocationEntry

def size : Nat := 8

def kind (e : RelocationEntry) : UInt8 := e.type &&& 0xf

def target (e : RelocationEntry) : UInt8 := e.type >>> 4

def encode (e : RelocationEntry) : List UInt8 :=
  bytes32 e.address ++ [e.sectionId, e.type, 0, 0]

@[simp]
theorem length_encode (e : RelocationEntry) : e.encode.length = size := by
  simp [encode, bytes32, size]

end RelocationEntry

/-- Names behind one another, each with a zero byte at its end. The empty name comes first. -/
structure StringTable where
  names : List Name
deriving DecidableEq, Repr

namespace StringTable

def empty : StringTable := ⟨[.empty]⟩

def encodeName (n : Name) : List UInt8 := n.bytes ++ [0]

def encode (t : StringTable) : List UInt8 := t.names.flatMap encodeName

/-- Where a name starts, if the table has it, and otherwise where it would start. -/
def offset (n : Name) : List Name → Nat
  | [] => 0
  | m :: ms => if m = n then 0 else (encodeName m).length + offset n ms

/-- Enter a name once. The result is where it starts. -/
def add (t : StringTable) (n : Name) : UInt32 × StringTable :=
  ((offset n t.names).toUInt32, if n ∈ t.names then t else ⟨t.names ++ [n]⟩)

end StringTable

end MipsToolchain.ObjectFile
