import MipsToolchain.Fault
import MipsToolchain.Isa.Field
import MipsToolchain.Isa.Register
import MipsToolchain.Isa.Version

namespace MipsToolchain.Isa

inductive Format where
  | register
  | immediate
  | jump
deriving DecidableEq, Repr

/-- What an operand is, and with it the place that it takes in the word. -/
inductive Argument where
  | rs
  | rt
  | rd
  | shamt
  | immediate
  | unsigned
  | memory
  | branch
  | target
deriving DecidableEq, Repr

namespace Argument

def all : List Argument := [rs, rt, rd, shamt, immediate, unsigned, memory, branch, target]

def isRegister : Argument → Bool
  | rs | rt | rd => true
  | _ => false

def describe : Argument → String
  | rs | rt | rd => "a register"
  | shamt => "a shift amount"
  | immediate => "a signed immediate"
  | unsigned => "an unsigned immediate"
  | memory => "a memory operand"
  | branch => "a branch target"
  | target => "a jump target"

end Argument

/-- The value of one argument: a register number, an immediate, a word offset or a word address. A
memory operand has its base register beside its offset. -/
structure Operand where
  value : Int64
  base : Register := Register.zero
deriving DecidableEq, Repr

namespace Operand

def ofRegister (r : Register) : Operand := ⟨Int64.ofNat r.index.toNat, Register.zero⟩

def ofValue (v : Int64) : Operand := ⟨v, Register.zero⟩

end Operand

namespace Argument

/-- The bits that an operand contributes, cut to the width of its field. -/
def encode (a : Argument) (op : Operand) : UInt32 :=
  let v := lowWord op.value
  match a with
  | rs => (v &&& registerMask) <<< 21
  | rt => (v &&& registerMask) <<< 16
  | rd => (v &&& registerMask) <<< 11
  | shamt => (v &&& registerMask) <<< 6
  | immediate | unsigned | branch => v &&& immediateMask
  | memory => (op.base.index.toUInt32 &&& registerMask) <<< 21 ||| (v &&& immediateMask)
  | target => v &&& targetMask

def decode (a : Argument) (w : UInt32) : Operand :=
  let field (shift mask : UInt32) : Int64 := Int64.ofNat (w >>> shift &&& mask).toNat
  match a with
  | rs => .ofValue (field 21 registerMask)
  | rt => .ofValue (field 16 registerMask)
  | rd => .ofValue (field 11 registerMask)
  | shamt => .ofValue (field 6 registerMask)
  | immediate | branch => .ofValue (signExtend (w &&& immediateMask) 16)
  | unsigned => .ofValue (field 0 immediateMask)
  | memory =>
    ⟨signExtend (w &&& immediateMask) 16, ⟨(w >>> 21 &&& registerMask).toUInt8⟩⟩
  | target => .ofValue (field 0 targetMask)

def render (a : Argument) (op : Operand) : String :=
  match a with
  | rs | rt | rd => Register.name ⟨op.value.toUInt64.toUInt8⟩
  | memory => toString op.value.toInt ++ "(" ++ op.base.name ++ ")"
  | unsigned | target => Text.markedHex op.value.toInt
  | shamt | immediate | branch => toString op.value.toInt

end Argument

structure Instruction where
  name : String
  format : Format
  opcode : UInt8
  /-- The function code or the `rt` field, where the opcode leaves the choice to it. -/
  selector : UInt8
  args : List Argument
  since : Version
  till : Version
deriving DecidableEq, Repr

/-- The opcode whose instructions differ in the function code. -/
def special : UInt8 := 0x00

/-- The opcode whose instructions differ in the `rt` field. -/
def regimm : UInt8 := 0x01

/-- The second opcode whose instructions differ in the function code. -/
def special2 : UInt8 := 0x1c

def selectorOf (opcode : UInt8) (w : UInt32) : UInt8 :=
  if opcode = special ∨ opcode = special2 then (w &&& functionMask).toUInt8
  else if opcode = regimm then (w >>> 16 &&& registerMask).toUInt8
  else 0

def opcodeOf (w : UInt32) : UInt8 := (w >>> 26).toUInt8

namespace Instruction

def availableIn (i : Instruction) (v : Version) : Bool :=
  decide (i.since.index ≤ v.index) && decide (v.index ≤ i.till.index)

/-- The bits of an instruction that do not depend on its operands. -/
def skeleton (i : Instruction) : UInt32 :=
  let opcode := i.opcode.toUInt32 <<< 26
  if i.opcode = special ∨ i.opcode = special2 then opcode ||| i.selector.toUInt32
  else if i.opcode = regimm then opcode ||| i.selector.toUInt32 <<< 16
  else opcode

def encode (i : Instruction) (operands : List Operand) : Except Fault UInt32 :=
  if operands.length ≠ i.args.length then
    .error (.operandCount i.name i.args.length operands.length)
  else
    .ok ((List.zipWith Argument.encode i.args operands).foldl (· ||| ·) i.skeleton)

def decode (i : Instruction) (w : UInt32) : List Operand :=
  i.args.map (·.decode w)

@[simp]
theorem length_decode (i : Instruction) (w : UInt32) : (i.decode w).length = i.args.length := by
  simp [decode]

def render (i : Instruction) (operands : List String) : String :=
  if operands.isEmpty then i.name else i.name ++ " " ++ ", ".intercalate operands

end Instruction

structure Decoded where
  instruction : Instruction
  operands : List Operand
deriving DecidableEq, Repr

namespace Decoded

def render (d : Decoded) : String :=
  d.instruction.render (List.zipWith Argument.render d.instruction.args d.operands)

def encode (d : Decoded) : Except Fault UInt32 := d.instruction.encode d.operands

end Decoded

end MipsToolchain.Isa
