namespace MipsToolchain.Isa

/-- The low `n` bits of a word as a signed number. Widths above the word's give zero. -/
def signExtend (w : UInt32) (n : Nat) : Int64 :=
  if n ≤ 32 then Int64.ofInt ((w.toNat : Int).bmod (Nat.pow 2 n)) else 0

/-- Whether a value is a signed number of `n` bits. Nothing fits in zero bits, and widths of a full
value or more are never used. -/
def fitsSigned (v : Int64) (n : Nat) : Bool :=
  decide
    (0 < n ∧ n < 64 ∧ -(Nat.pow 2 (n - 1) : Int) ≤ v.toInt ∧ v.toInt < (Nat.pow 2 (n - 1) : Int))

/-- Whether a value is an unsigned number of `n` bits, for widths that leave the sign free. -/
def fitsUnsigned (v : Int64) (n : Nat) : Bool :=
  decide (n < 63 ∧ 0 ≤ v.toInt ∧ v.toInt < (Nat.pow 2 n : Int))

def lowWord (v : Int64) : UInt32 := v.toUInt64.toUInt32

def registerMask : UInt32 := 0x1f

def functionMask : UInt32 := 0x3f

def immediateMask : UInt32 := 0xffff

def targetMask : UInt32 := 0x03ffffff

def jumpField (w : UInt32) : UInt32 := w &&& targetMask

def withJumpField (w target : UInt32) : UInt32 :=
  (w &&& ~~~targetMask) ||| (target &&& targetMask)

def immediateField (w : UInt32) : UInt32 := w &&& immediateMask

def withImmediateField (w imm : UInt32) : UInt32 :=
  (w &&& ~~~immediateMask) ||| (imm &&& immediateMask)

end MipsToolchain.Isa
