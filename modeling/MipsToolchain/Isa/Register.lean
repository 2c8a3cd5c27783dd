import MipsToolchain.Text.Hex

namespace MipsToolchain.Isa

/-- A general purpose register, by its number. Only the first 32 numbers have registers. -/
structure Register where
  index : UInt8
deriving DecidableEq, Repr

namespace Register

instance : Inhabited Register := ⟨⟨0⟩⟩

def names : List String := [
  "zero", "at", "v0", "v1", "a0", "a1", "a2", "a3",
  "t0", "t1", "t2", "t3", "t4", "t5", "t6", "t7",
  "s0", "s1", "s2", "s3", "s4", "s5", "s6", "s7",
  "t8", "t9", "k0", "k1", "gp", "sp", "fp", "ra"]

def zero : Register := ⟨0⟩

/-- The register that expansions of pseudo-instructions overwrite. -/
def assemblerTemporary : Register := ⟨1⟩

def name (r : Register) : String :=
  match names[r.index.toNat]? with
  | some n => "$" ++ n
  | none => "$?" ++ toString r.index

/-- A number without superfluous zeros that some register has. -/
def ofNumber? (digits : List Char) : Option Register :=
  match digits with
  | '0' :: _ :: _ => none
  | _ => do
    let n ← Text.numeral? 10 digits
    if n < names.length then some ⟨n.toUInt8⟩ else none

def ofAlias? (name : String) : Option Register :=
  if name = "s8" then some ⟨30⟩ else none

def ofName? (name : String) : Option Register :=
  match name.toList with
  | [] => none
  | c :: r =>
    if c.isDigit then ofNumber? (c :: r)
    else match names.idxOf? name with
      | some n => some ⟨n.toUInt8⟩
      | none => ofAlias? name

def parse? (text : String) : Option Register :=
  match text.toList with
  | '$' :: r => ofName? (String.ofList r)
  | _ => none

end Register

end MipsToolchain.Isa
