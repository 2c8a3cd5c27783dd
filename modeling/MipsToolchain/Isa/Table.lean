import MipsToolchain.Isa.Instruction

namespace MipsToolchain.Isa

namespace Instruction

def ofFunction (name : String) (code : UInt8) (args : List Argument)
    (since : Version := .mips1) (till : Version := .latest) : Instruction :=
  ⟨name, .register, special, code, args, since, till⟩

def ofFunction2 (name : String) (code : UInt8) (args : List Argument)
    (since : Version := .mips1) (till : Version := .latest) : Instruction :=
  ⟨name, .register, special2, code, args, since, till⟩

def ofBranch (name : String) (code : UInt8) (till : Version := .latest) : Instruction :=
  ⟨name, .immediate, regimm, code, [.rs, .branch], .mips1, till⟩

def ofImmediate (name : String) (opcode : UInt8) (args : List Argument)
    (since : Version := .mips1) (till : Version := .latest) : Instruction :=
  ⟨name, .immediate, opcode, 0, args, since, till⟩

def ofJump (name : String) (opcode : UInt8) : Instruction :=
  ⟨name, .jump, opcode, 0, [.target], .mips1, .latest⟩

def all : List Instruction := [
  ofFunction "sll" 0x00 [.rd, .rt, .shamt],
  ofFunction "srl" 0x02 [.rd, .rt, .shamt],
  ofFunction "sra" 0x03 [.rd, .rt, .shamt],
  ofFunction "sllv" 0x04 [.rd, .rt, .rs],
  ofFunction "srlv" 0x06 [.rd, .rt, .rs],
  ofFunction "srav" 0x07 [.rd, .rt, .rs],
  ofFunction "jr" 0x08 [.rs],
  ofFunction "jalr" 0x09 [.rd, .rs],
  ofFunction "movz" 0x0a [.rd, .rs, .rt] .mips4 .mips32r2,
  ofFunction "movn" 0x0b [.rd, .rs, .rt] .mips4 .mips32r2,
  ofFunction "syscall" 0x0c [],
  ofFunction "break" 0x0d [],
  ofFunction "mfhi" 0x10 [.rd] .mips1 .mips32r2,
  ofFunction "mthi" 0x11 [.rs] .mips1 .mips32r2,
  ofFunction "mflo" 0x12 [.rd] .mips1 .mips32r2,
  ofFunction "mtlo" 0x13 [.rs] .mips1 .mips32r2,
  ofFunction "mult" 0x18 [.rs, .rt] .mips1 .mips32r2,
  ofFunction "multu" 0x19 [.rs, .rt] .mips1 .mips32r2,
  ofFunction "div" 0x1a [.rs, .rt] .mips1 .mips32r2,
  ofFunction "divu" 0x1b [.rs, .rt] .mips1 .mips32r2,
  ofFunction "add" 0x20 [.rd, .rs, .rt],
  ofFunction "addu" 0x21 [.rd, .rs, .rt],
  ofFunction "sub" 0x22 [.rd, .rs, .rt],
  ofFunction "subu" 0x23 [.rd, .rs, .rt],
  ofFunction "and" 0x24 [.rd, .rs, .rt],
  ofFunction "or" 0x25 [.rd, .rs, .rt],
  ofFunction "xor" 0x26 [.rd, .rs, .rt],
  ofFunction "nor" 0x27 [.rd, .rs, .rt],
  ofFunction "slt" 0x2a [.rd, .rs, .rt],
  ofFunction "sltu" 0x2b [.rd, .rs, .rt],
  ofFunction "teq" 0x34 [.rs, .rt] .mips2,
  ofFunction2 "madd" 0x00 [.rs, .rt] .mips32r1 .mips32r2,
  ofFunction2 "mul" 0x02 [.rd, .rs, .rt] .mips32r1 .mips32r2,
  ofBranch "bltz" 0x00,
  ofBranch "bgez" 0x01,
  ofBranch "bltzal" 0x10 .mips32r2,
  ofBranch "bgezal" 0x11 .mips32r2,
  ofJump "j" 0x02,
  ofJump "jal" 0x03,
  ofImmediate "beq" 0x04 [.rs, .rt, .branch],
  ofImmediate "bne" 0x05 [.rs, .rt, .branch],
  ofImmediate "blez" 0x06 [.rs, .branch],
  ofImmediate "bgtz" 0x07 [.rs, .branch],
  ofImmediate "beql" 0x14 [.rs, .rt, .branch] .mips2 .mips32r2,
  ofImmediate "bnel" 0x15 [.rs, .rt, .branch] .mips2 .mips32r2,
  ofImmediate "addi" 0x08 [.rt, .rs, .immediate] .mips1 .mips32r2,
  ofImmediate "addiu" 0x09 [.rt, .rs, .immediate],
  ofImmediate "slti" 0x0a [.rt, .rs, .immediate],
  ofImmediate "sltiu" 0x0b [.rt, .rs, .immediate],
  ofImmediate "andi" 0x0c [.rt, .rs, .unsigned],
  ofImmediate "ori" 0x0d [.rt, .rs, .unsigned],
  ofImmediate "xori" 0x0e [.rt, .rs, .unsigned],
  ofImmediate "lui" 0x0f [.rt, .unsigned],
  ofImmediate "lb" 0x20 [.rt, .memory],
  ofImmediate "lh" 0x21 [.rt, .memory],
  ofImmediate "lw" 0x23 [.rt, .memory],
  ofImmediate "lbu" 0x24 [.rt, .memory],
  ofImmediate "lhu" 0x25 [.rt, .memory],
  ofImmediate "sb" 0x28 [.rt, .memory],
  ofImmediate "sh" 0x29 [.rt, .memory],
  ofImmediate "sw" 0x2b [.rt, .memory],
  ofImmediate "ll" 0x30 [.rt, .memory] .mips2 .mips32r2,
  ofImmediate "sc" 0x38 [.rt, .memory] .mips2 .mips32r2]

theorem keys_nodup : (all.map fun i => (i.opcode, i.selector)).Nodup := by decide +kernel

def ofName? (name : String) : Option Instruction :=
  all.find? (·.name = Text.lower name)

end Instruction

def isMnemonic (name : String) : Bool := (Instruction.ofName? name).isSome

inductive Lookup where
  | found (i : Instruction)
  | unsupported (i : Instruction)
  | unknown
deriving DecidableEq, Repr

structure Table where
  version : Version
deriving DecidableEq, Repr

namespace Table

/-- Mnemonics are looked up without regard to case. -/
def lookup (t : Table) (name : String) : Lookup :=
  match Instruction.ofName? name with
  | none => .unknown
  | some i => if i.availableIn t.version then .found i else .unsupported i

def instructions (t : Table) : List Instruction :=
  Instruction.all.filter (·.availableIn t.version)

def sorted (t : Table) : List Instruction :=
  t.instructions.mergeSort fun a b => decide (a.name ≤ b.name)

def find? (t : Table) (w : UInt32) : Option Instruction :=
  let opcode := opcodeOf w
  t.instructions.find? fun i => i.opcode == opcode && i.selector == selectorOf opcode w

def decode (t : Table) (w : UInt32) : Option Decoded :=
  (t.find? w).map fun i => ⟨i, i.decode w⟩

end Table

/-- The address that a branch at `pc` with a given word offset goes to. -/
def branchTarget (pc : UInt32) (offset : Int64) : UInt32 :=
  pc + 4 + (lowWord offset <<< (2 : UInt32))

/-- The address that a jump at `pc` with a given target field goes to. -/
def jumpTarget (pc : UInt32) (field : Int64) : UInt32 :=
  ((pc + 4) &&& 0xf0000000) ||| (lowWord field <<< (2 : UInt32))

/-- An operand of the instruction at `pc`, with branches and jumps as absolute addresses. -/
def Argument.renderAt (pc : UInt32) (a : Argument) (op : Operand) : String :=
  match a with
  | .branch => "0x" ++ Text.hexWord (branchTarget pc op.value)
  | .target => "0x" ++ Text.hexWord (jumpTarget pc op.value)
  | _ => a.render op

/-- The line that stands for a word at an address. Words of no instruction are shown as data. -/
def Table.disassemble (t : Table) (w pc : UInt32) : String :=
  if w = 0 then "nop"
  else match t.decode w with
    | none => ".word 0x" ++ Text.hexWord w
    | some d =>
      d.instruction.render (List.zipWith (Argument.renderAt pc) d.instruction.args d.operands)

end MipsToolchain.Isa
