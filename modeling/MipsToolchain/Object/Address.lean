import MipsToolchain.Text.RawText

namespace MipsToolchain

/-- A plain number, or a distance from the start of a named section. The empty name stands for no
section. -/
structure Address where
  value : Int64
  sectionName : Name
deriving DecidableEq, Repr

namespace Address

def absolute (value : Int64) : Address := ⟨value, .empty⟩

def relative (sectionName : Name) (offset : Int64) : Address := ⟨offset, sectionName⟩

instance : Inhabited Address := ⟨absolute 0⟩

/-- Whether the final value depends on where a section is placed. -/
def isRelocatable (a : Address) : Bool := !a.sectionName.isEmpty

def add (a : Address) (delta : Int64) : Address := { a with value := a.value + delta }

def render (a : Address) : String :=
  let offset := Text.markedHex a.value.toInt
  if a.isRelocatable then a.sectionName.text ++ "+" ++ offset else offset

@[simp]
theorem isRelocatable_absolute (v : Int64) : (absolute v).isRelocatable = false := rfl

@[simp]
theorem isRelocatable_add (a : Address) (d : Int64) :
    (a.add d).isRelocatable = a.isRelocatable := rfl

end Address

end MipsToolchain
