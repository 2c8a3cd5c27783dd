import MipsToolchain.CommandLine.Host

namespace MipsToolchain.CommandLine

structure Directory where
  files : List (String × ByteArray) := []
  out : ByteArray := .empty
  err : ByteArray := .empty

namespace Directory

def read? (d : Directory) (name : String) : Option ByteArray := d.files.lookup name

def write (d : Directory) (name : String) (bytes : ByteArray) : Directory :=
  { d with files := (name, bytes) :: d.files.filter (·.1 ≠ name) }

def changedFrom (d before : Directory) : List (String × ByteArray) :=
  let changed := d.files.filter fun (n, bytes) =>
    (before.read? n).all fun old => old.data.toList ≠ bytes.data.toList
  changed.mergeSort fun a b => decide (a.1 ≤ b.1)

/-- Whether a file of a name can stand in a directory without any below it. -/
def isPlainName (name : String) : Bool := !name.isEmpty && !name.toList.contains '/'

/-- A program runs in a directory that has none below it. -/
def host : Host (StateM Directory) where
  read name := return match (← get).read? name with
    | some bytes => .ok bytes
    | none => .error (.missing name)
  write name bytes := do
    if isPlainName name then
      modify (·.write name bytes)
      return .ok ()
    else return .error (.missing name)
  out bytes := modify fun d => { d with out := d.out ++ bytes }
  err bytes := modify fun d => { d with err := d.err ++ bytes }

@[simp]
theorem read?_write (d : Directory) (name : String) (bytes : ByteArray) :
    (d.write name bytes).read? name = some bytes := by
  simp [read?, write]

end Directory

end MipsToolchain.CommandLine
