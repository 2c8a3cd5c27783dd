import MipsToolchain.Encoding.Operand
import MipsToolchain.Expr.Eval
import MipsToolchain.Object.Reference

namespace MipsToolchain

structure EncodedWord where
  value : UInt32
  reference : Option Reference
deriving DecidableEq, Repr

namespace EncodedWord

def zero : EncodedWord := ⟨0, none⟩

end EncodedWord

inductive ValuePart where
  | whole
  | high
  | low
deriving DecidableEq, Repr

structure OperandValue where
  register : Isa.Register := .zero
  value : ExprValue := .constant 0
  part : ValuePart := .whole
  /-- The operand as it is written, if it is. -/
  origin : Option SourceOperand := none
deriving DecidableEq, Repr

/-- An operand for its field, with the reference it leaves. There is none after an error. -/
abbrev FieldValue := Option (Isa.Operand × Option Reference)

namespace OperandValue

def report (v : OperandValue) (p : Problem) (args : List MessageArg) : Reported Unit :=
  match v.origin with
  | some o => MipsToolchain.report p o.location [o.text] args
  | none => MipsToolchain.report p .none [] args

def refuse (v : OperandValue) (p : Problem) (args : List MessageArg) : Reported FieldValue := do
  v.report p args
  pure none

/-- A field that holds the constant part for now. -/
def deferred (v : OperandValue) (kind : RelocationKind) (loc : Address) (field : Int64) :
    FieldValue :=
  some (.ofValue field, some ⟨loc, v.value.target, kind, v.value.number⟩)

def settled (field : Int64) : FieldValue := some (.ofValue field, none)

def encodeShift (v : OperandValue) : Reported FieldValue := do
  if v.value.isRelocatable then v.refuse .relocatableShift []
  else
    let n := v.value.number
    unless Isa.fitsUnsigned n 5 do
      v.report .immediateTruncated [.int n.toInt, .int 5, .int (n &&& 31).toInt]
    pure (settled n)

def checkImmediate (v : OperandValue) (unsigned : Bool) : Reported Unit := do
  let n := v.value.number
  if unsigned then
    unless Isa.fitsUnsigned n 16 do
      v.report .immediateTruncated [.int n.toInt, .int 16, .int (n &&& 0xffff).toInt]
  else
    unless Isa.fitsSigned n 16 do
      v.report .immediateTruncated
        [.int n.toInt, .int 16, .int (Isa.signExtend (Isa.lowWord n) 16).toInt]

def encodeImmediate (v : OperandValue) (unsigned : Bool) (loc : Address) : Reported FieldValue := do
  let n := v.value.number
  if v.value.isRelocatable then
    match v.part with
    | .high => pure (v.deferred .high16 loc (n >>> 16))
    | _ => pure (v.deferred .low16 loc n)
  else
    match v.part with
    | .high => pure (settled (Int64.ofNat (Isa.lowWord n >>> 16).toNat))
    | .low => pure (settled (n &&& 0xffff))
    | .whole =>
      v.checkImmediate unsigned
      pure (settled n)

def encodeDisplacement (v : OperandValue) (words : Int64) : Reported FieldValue :=
  if Isa.fitsSigned words 16 then pure (settled words)
  else v.refuse .branchOutOfRange [.int words.toInt]

/-- A number is the displacement itself, and a place in the same section is at a known distance. All
else is left to linking. -/
def encodeBranch (v : OperandValue) (loc : Address) : Reported FieldValue :=
  let n := v.value.number
  if !v.value.isRelocatable then v.encodeDisplacement n
  else if v.value.reference.isNone && v.value.address.sectionName == loc.sectionName then
    let distance := n - (loc.value + 4)
    if distance % 4 ≠ 0 then v.refuse .branchMisaligned []
    else v.encodeDisplacement (distance >>> 2)
  else if n % 4 ≠ 0 then v.refuse .branchMisaligned []
  else pure (v.deferred .pcrel16 loc (n >>> 2))

def encodeTarget (v : OperandValue) (loc : Address) : Reported FieldValue := do
  let n := v.value.number
  if n % 4 ≠ 0 then v.refuse .branchMisaligned []
  else if v.value.isRelocatable then pure (v.deferred .jump26 loc (n >>> 2))
  else
    unless Isa.fitsUnsigned n 28 do
      v.report .jumpRegion [.int n.toInt]
    pure (settled (n >>> 2))

/-- An operand in the field of its argument, for an instruction at a given place. -/
def encode (v : OperandValue) (a : Isa.Argument) (loc : Address) : Reported FieldValue :=
  match a with
  | .rs | .rt | .rd => pure (some (.ofRegister v.register, none))
  | .shamt => v.encodeShift
  | .immediate => v.encodeImmediate false loc
  | .unsigned => v.encodeImmediate true loc
  | .memory => do
    return (← v.encodeImmediate false loc).map fun (op, r) => ({ op with base := v.register }, r)
  | .branch => v.encodeBranch loc
  | .target => v.encodeTarget loc

end OperandValue

end MipsToolchain
