import MipsToolchain.Isa.Table

namespace MipsToolchain

inductive ExpansionOperand where
  | register (r : Isa.Register)
  | constant (v : Int64)
  | whole (index : Nat)
  | high (index : Nat)
  | low (index : Nat)
deriving DecidableEq, Repr

structure Pseudo where
  name : String
  args : List Isa.Argument
  /-- How many words are kept for the instruction, before its operands have values. -/
  count : Nat
  expansion : List (String × List ExpansionOperand)
deriving DecidableEq, Repr

namespace Pseudo

open ExpansionOperand

def temporary : ExpansionOperand := register .assemblerTemporary

def zero : ExpansionOperand := register .zero

def load (name : String) : Pseudo :=
  ⟨name, [.rt, .immediate], 2,
    [("lui", [temporary, high 1]), ("ori", [whole 0, temporary, low 1])]⟩

/-- Branch on a comparison, whose outcome goes through the temporary register. -/
def compare (name : String) (left right : Nat) (branch : String) : Pseudo :=
  ⟨name, [.rs, .rt, .branch], 2,
    [("slt", [temporary, whole left, whole right]), (branch, [temporary, zero, whole 2])]⟩

def all : List Pseudo := [
  ⟨"nop", [], 1, [("sll", [zero, zero, constant 0])]⟩,
  ⟨"move", [.rd, .rs], 1, [("addu", [whole 0, whole 1, zero])]⟩,
  load "li",
  load "la",
  ⟨"abs", [.rd, .rs], 3,
    [("sra", [temporary, whole 1, constant 31]), ("xor", [whole 0, whole 1, temporary]),
      ("subu", [whole 0, whole 0, temporary])]⟩,
  ⟨"neg", [.rd, .rs], 1, [("sub", [whole 0, zero, whole 1])]⟩,
  ⟨"not", [.rd, .rs], 1, [("nor", [whole 0, whole 1, zero])]⟩,
  compare "blt" 0 1 "bne",
  compare "bgt" 1 0 "bne",
  compare "ble" 1 0 "beq",
  compare "bge" 0 1 "beq",
  ⟨"b", [.branch], 1, [("beq", [zero, zero, whole 0])]⟩,
  ⟨"beqz", [.rs, .branch], 1, [("beq", [whole 0, zero, whole 1])]⟩,
  ⟨"bnez", [.rs, .branch], 1, [("bne", [whole 0, zero, whole 1])]⟩]

def ofName? (name : String) : Option Pseudo := all.find? (·.name = name)

end Pseudo

def isInstructionName (name : String) : Bool :=
  Isa.isMnemonic name || (Pseudo.ofName? (Text.lower name)).isSome

end MipsToolchain
