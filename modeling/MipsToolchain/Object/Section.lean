import MipsToolchain.Text.RawText

namespace MipsToolchain

structure SectionFlags where
  write : Bool := false
  exec : Bool := false
  nobits : Bool := false
deriving DecidableEq, Repr

namespace SectionFlags

def ofCode (code : UInt8) : SectionFlags :=
  ⟨code &&& 1 != 0, code &&& 2 != 0, code &&& 4 != 0⟩

def render (f : SectionFlags) : String :=
  "r" ++ (if f.write then "w" else "") ++ (if f.exec then "x" else "")
    ++ (if f.nobits then " nobits" else "")

end SectionFlags

inductive StandardSection where
  | text
  | rodata
  | data
  | sdata
  | sbss
  | bss
deriving DecidableEq, Repr

namespace StandardSection

/-- The standard sections in the order in which they are laid out. -/
def all : List StandardSection := [text, rodata, data, sdata, sbss, bss]

def title : StandardSection → String
  | text => ".text"
  | rodata => ".rodata"
  | data => ".data"
  | sdata => ".sdata"
  | sbss => ".sbss"
  | bss => ".bss"

def name (s : StandardSection) : Name := s.title

def flags : StandardSection → SectionFlags
  | text => ⟨false, true, false⟩
  | rodata => ⟨false, false, false⟩
  | data | sdata => ⟨true, false, false⟩
  | sbss | bss => ⟨true, false, true⟩

def ofName? (n : Name) : Option StandardSection := all.find? (·.name = n)

def names : List Name := all.map name

theorem mem_all (s : StandardSection) : s ∈ all := by
  cases s <;> decide

end StandardSection

/-- The flags that a section of a given name gets by itself. Other than standard sections hold
read-only data. -/
def standardFlags (n : Name) : SectionFlags :=
  match StandardSection.ofName? n with
  | some s => s.flags
  | none => {}

structure Section where
  name : Name
  flags : SectionFlags
  virtualAddress : UInt64 := 0
  /-- The largest alignment asked for, as a power of two. -/
  alignment : Nat := 0
  bytes : ByteArray := .empty

namespace Section

@[ext]
theorem ext {s t : Section} (hn : s.name = t.name) (hf : s.flags = t.flags)
    (hv : s.virtualAddress = t.virtualAddress) (ha : s.alignment = t.alignment)
    (hb : s.bytes.data.toList = t.bytes.data.toList) : s = t := by
  obtain ⟨_, _, _, _, ⟨⟨_⟩⟩⟩ := s
  obtain ⟨_, _, _, _, ⟨⟨_⟩⟩⟩ := t
  simp_all

/-- Sections are compared field by field, and their contents byte by byte. -/
instance : DecidableEq Section := fun s t =>
  if h : s.name = t.name ∧ s.flags = t.flags ∧ s.virtualAddress = t.virtualAddress ∧
      s.alignment = t.alignment ∧ s.bytes.data.toList = t.bytes.data.toList then
    .isTrue (ext h.1 h.2.1 h.2.2.1 h.2.2.2.1 h.2.2.2.2)
  else .isFalse fun e => h (by subst e; simp)

def length (s : Section) : Nat := s.bytes.size

def append (s : Section) (bytes : ByteArray) : Section := { s with bytes := s.bytes ++ bytes }

def render (s : Section) : String :=
  s.name.text ++ " [" ++ s.flags.render ++ "] " ++ toString s.length ++ " bytes @ "
    ++ Text.markedHex s.virtualAddress.toNat

@[simp]
theorem length_append (s : Section) (bytes : ByteArray) :
    (s.append bytes).length = s.length + bytes.size := by
  simp [length, append]

end Section

def zeroBytes (n : Nat) : ByteArray :=
  n.repeat (·.push 0) (ByteArray.emptyWithCapacity n)

theorem size_repeat_push (n : Nat) (bs : ByteArray) :
    (n.repeat (·.push 0) bs).size = bs.size + n := by
  induction n with
  | zero => rfl
  | succ n ih =>
    rw [Nat.repeat, ByteArray.size_push, ih]
    omega

@[simp]
theorem size_zeroBytes (n : Nat) : (zeroBytes n).size = n := by
  rw [zeroBytes, size_repeat_push]
  exact Nat.zero_add n

end MipsToolchain
