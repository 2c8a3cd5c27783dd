import MipsToolchain.Proofs.Isa.Decoding

namespace MipsToolchain.Isa

section Words

theorem and_or_distrib (w a b : UInt32) : w &&& (a ||| b) = w &&& a ||| w &&& b := by
  rw [UInt32.and_comm, or_and_distrib, UInt32.and_comm a, UInt32.and_comm b]

theorem shiftLeft_field (w mask : UInt32) {s : UInt32} (hs : s < 32) :
    (w >>> s &&& mask) <<< s = w &&& mask <<< s := by
  have hmod : s.toNat % 32 = s.toNat := Nat.mod_eq_of_lt (UInt32.lt_iff_toNat_lt.mp hs)
  rw [← UInt32.toNat_inj]
  simp only [UInt32.toNat_shiftLeft, UInt32.toNat_and, UInt32.toNat_shiftRight, hmod]
  apply Nat.eq_of_testBit_eq
  intro k
  simp only [Nat.testBit_and, Nat.testBit_mod_two_pow, Nat.testBit_shiftLeft,
    Nat.testBit_shiftRight]
  by_cases hk : s.toNat ≤ k
  · rw [Nat.add_sub_cancel' hk]
    cases w.toNat.testBit k <;> simp
  · simp [hk]

theorem shiftRight_field (w : UInt32) {s : UInt32} (hs : s < 27) :
    (w &&& registerMask) <<< s >>> s &&& registerMask = w &&& registerMask := by
  have hlt := UInt32.lt_iff_toNat_lt.mp hs
  have h27 : (27 : UInt32).toNat = 27 := rfl
  have hmod : s.toNat % 32 = s.toNat := Nat.mod_eq_of_lt (by omega)
  have hmask : registerMask.toNat = 2 ^ 5 - 1 := rfl
  rw [← UInt32.toNat_inj]
  simp only [UInt32.toNat_shiftLeft, UInt32.toNat_and, UInt32.toNat_shiftRight, hmod, hmask]
  apply Nat.eq_of_testBit_eq
  intro k
  simp only [Nat.testBit_and, Nat.testBit_mod_two_pow, Nat.testBit_shiftLeft,
    Nat.testBit_shiftRight, Nat.testBit_two_pow_sub_one, Nat.add_sub_cancel_left]
  by_cases hk : k < 5
  · simp [hk, show s.toNat + k < 32 by omega]
  · simp [hk]

theorem and_and_self (w mask : UInt32) : w &&& mask &&& mask = w &&& mask := by
  rw [UInt32.and_assoc, UInt32.and_self]

theorem and_and_of_le {m n : UInt32} (h : m &&& n = m) (w : UInt32) : w &&& m &&& n = w &&& m := by
  rw [UInt32.and_assoc, h]

theorem foldl_or_and {mask : UInt32} {ws : List UInt32} (h : ∀ x ∈ ws, x &&& mask = 0)
    (base : UInt32) : ws.foldl (· ||| ·) base &&& mask = base &&& mask := by
  induction ws generalizing base with
  | nil => rfl
  | cons x ws ih =>
    rw [List.foldl_cons, ih fun y hy => h y (by simp [hy]), or_and_distrib, h x (by simp),
      UInt32.or_zero]

theorem foldl_and_or (w : UInt32) (masks : List UInt32) (mask : UInt32) :
    (masks.map (w &&& ·)).foldl (· ||| ·) (w &&& mask) = w &&& masks.foldl (· ||| ·) mask := by
  induction masks generalizing mask with
  | nil => rfl
  | cons m masks ih => rw [List.map_cons, List.foldl_cons, ← and_or_distrib, ih, List.foldl_cons]

end Words

namespace Argument

def mask : Argument → UInt32
  | rs => registerMask <<< 21
  | rt => registerMask <<< 16
  | rd => registerMask <<< 11
  | shamt => registerMask <<< 6
  | immediate | unsigned | branch => immediateMask
  | memory => registerMask <<< 21 ||| immediateMask
  | target => targetMask

def covers (a : Argument) (k : Nat) : Bool :=
  match a with
  | rs => 21 ≤ k ∧ k < 26
  | rt => 16 ≤ k ∧ k < 21
  | rd => 11 ≤ k ∧ k < 16
  | shamt => 6 ≤ k ∧ k < 11
  | immediate | unsigned | branch => k < 16
  | memory => 21 ≤ k ∧ k < 26 ∨ k < 16
  | target => k < 26

theorem low_signExtend (w : UInt32) :
    lowWord (signExtend (w &&& immediateMask) 16) &&& immediateMask = w &&& immediateMask := by
  have hlow := toNat_lowWord (signExtend (w &&& immediateMask) 16)
  rw [immediateMask] at hlow ⊢
  rw [toInt_signExtend16, Int.bmod_def] at hlow
  rw [← UInt32.toNat_inj, toNat_low16, toNat_low16]
  split at hlow <;> omega

theorem encode_decode (a : Argument) (w : UInt32) : a.encode (a.decode w) = w &&& a.mask := by
  have hreg : ∀ s : UInt32, s < 32 →
      (lowWord (Int64.ofNat (w >>> s &&& registerMask).toNat) &&& registerMask) <<< s =
        w &&& registerMask <<< s := by
    intro s hs
    rw [lowWord_field, and_and_self, shiftLeft_field _ _ hs]
  cases a with
  | rs => exact hreg 21 (by decide)
  | rt => exact hreg 16 (by decide)
  | rd => exact hreg 11 (by decide)
  | shamt => exact hreg 6 (by decide)
  | immediate | branch => exact low_signExtend w
  | unsigned | target =>
    simp only [encode, decode, mask, Operand.ofValue, UInt32.shiftRight_zero]
    rw [lowWord_field, and_and_self]
  | memory =>
    have hbase : (w >>> 21 &&& registerMask).toUInt8.toUInt32 = w >>> 21 &&& registerMask := by
      rw [← UInt32.toNat_inj, UInt8.toNat_toUInt32, UInt32.toNat_toUInt8, registerMask, toNat_low5]
      omega
    simp only [encode, decode, mask]
    rw [low_signExtend, hbase, and_and_self, shiftLeft_field _ _ (by decide), and_or_distrib]

theorem encode_and_mask (a : Argument) (op : Operand) : a.encode op &&& a.mask = a.encode op := by
  cases a with
  | rs | rt | rd | shamt =>
    simp only [encode, mask]
    rw [← UInt32.shiftLeft_and, and_and_self]
  | immediate | unsigned | branch | target => exact and_and_self _ _
  | memory =>
    simp only [encode, mask]
    rw [UInt32.shiftLeft_and, or_and_distrib, and_and_of_le rfl, and_and_of_le rfl]

theorem decode_and_mask (a : Argument) (w : UInt32) : a.decode (w &&& a.mask) = a.decode w := by
  cases a with
  | rs | rt | rd | shamt =>
    simp only [decode, mask]
    rw [UInt32.shiftRight_and, UInt32.and_assoc]
    rfl
  | immediate | branch =>
    simp only [decode, mask]
    rw [and_and_self]
  | unsigned | target =>
    simp only [decode, mask]
    rw [UInt32.shiftRight_and, UInt32.and_assoc]
    rfl
  | memory =>
    simp only [decode, mask]
    rw [UInt32.shiftRight_and, UInt32.and_assoc, UInt32.and_assoc]
    rfl

theorem encode_and_of_apart {a : Argument} {m : UInt32} (h : a.mask &&& m = 0) (op : Operand) :
    a.encode op &&& m = 0 := by
  rw [← encode_and_mask, UInt32.and_assoc, h, UInt32.and_zero]

end Argument

def opcodeMask : UInt32 := 0xfc000000

namespace Instruction

/-- The bits of a word that tell instructions apart. -/
def keyMask (i : Instruction) : UInt32 :=
  if i.opcode = special ∨ i.opcode = special2 then opcodeMask ||| functionMask
  else if i.opcode = regimm then opcodeMask ||| registerMask <<< 16
  else opcodeMask

def mask (i : Instruction) : UInt32 := (i.args.map Argument.mask).foldl (· ||| ·) i.keyMask

def covers (i : Instruction) (k : Nat) : Bool :=
  let selector : Bool :=
    if i.opcode = special ∨ i.opcode = special2 then k < 6
    else if i.opcode = regimm then 16 ≤ k ∧ k < 21
    else false
  26 ≤ k || selector || i.args.any (·.covers k)

theorem testBit_mask : ∀ i ∈ all, ∀ k < 32, i.mask.toNat.testBit k = i.covers k := by
  decide

/-- No bit of a word has two uses. -/
theorem mask_pattern : ∀ i ∈ all, i.Matches i.skeleton ∧
    (i.keyMask :: i.args.map Argument.mask).Pairwise (fun m n => n &&& m = 0) ∧
    i.mask &&& i.keyMask = i.keyMask ∧ ∀ a ∈ i.args, i.mask &&& a.mask = a.mask := by
  decide

theorem shiftLeft_opcodeOf (w : UInt32) : (opcodeOf w).toUInt32 <<< 26 = w &&& opcodeMask := by
  have hw := w.toNat_lt
  rw [← UInt32.toNat_inj, opcodeMask, toNat_high6, UInt32.toNat_shiftLeft, UInt8.toNat_toUInt32,
    toNat_opcodeOf, Nat.shiftLeft_eq]
  change w.toNat / 0x4000000 * 0x4000000 % 0x100000000 = _
  omega

theorem toUInt32_toUInt8 {w mask : UInt32} (h : mask.toNat < 256) :
    (w &&& mask).toUInt8.toUInt32 = w &&& mask := by
  have hle : (w &&& mask).toNat ≤ mask.toNat := by
    rw [UInt32.toNat_and]
    exact Nat.and_le_right
  rw [← UInt32.toNat_inj, UInt8.toNat_toUInt32, UInt32.toNat_toUInt8]
  exact Nat.mod_eq_of_lt (Nat.lt_of_le_of_lt hle h)

theorem Matches.and_keyMask {i : Instruction} {w : UInt32} (h : i.Matches w) :
    w &&& i.keyMask = i.skeleton := by
  obtain ⟨hop, hsel⟩ := h
  unfold keyMask skeleton
  rw [← hop, shiftLeft_opcodeOf, hop, ← hsel]
  unfold selectorOf
  split_ifs with hfunction hbranch
  · rw [and_or_distrib, toUInt32_toUInt8 (by decide)]
  · rw [and_or_distrib, toUInt32_toUInt8 (by decide), shiftLeft_field _ _ (by decide)]
  · rfl

theorem opcodeOf_and_keyMask (i : Instruction) (w : UInt32) :
    opcodeOf (w &&& i.keyMask) = opcodeOf w := by
  have hcut : ∀ x : UInt32, opcodeOf (x &&& opcodeMask) = opcodeOf x := by
    intro x
    rw [← UInt8.toNat_inj, toNat_opcodeOf, toNat_opcodeOf, opcodeMask, toNat_high6]
    omega
  have hkey : i.keyMask &&& opcodeMask = opcodeMask := by
    unfold keyMask
    split_ifs <;> rfl
  rw [← hcut (w &&& i.keyMask), UInt32.and_assoc, hkey, hcut]

theorem selectorOf_and_keyMask (i : Instruction) (w : UInt32) :
    selectorOf i.opcode (w &&& i.keyMask) = selectorOf i.opcode w := by
  unfold selectorOf keyMask
  split_ifs with hfunction hbranch
  · rw [UInt32.and_assoc]
    rfl
  · rw [UInt32.shiftRight_and, UInt32.and_assoc]
    rfl
  · rfl

theorem Matches.of_and_keyMask {i : Instruction} {w w' : UInt32} (h : i.Matches w)
    (hw : w' &&& i.keyMask = w &&& i.keyMask) : i.Matches w' := by
  obtain ⟨hop, hsel⟩ := h
  constructor
  · rw [← opcodeOf_and_keyMask, hw, opcodeOf_and_keyMask, hop]
  · rw [← selectorOf_and_keyMask, hw, selectorOf_and_keyMask, hsel]

section Decoding

variable {i : Instruction} {w : UInt32}

theorem matches_and_mask (hi : i ∈ all) (h : i.Matches w) : i.Matches (w &&& i.mask) := by
  obtain ⟨-, -, hkey, -⟩ := mask_pattern i hi
  refine h.of_and_keyMask ?_
  rw [UInt32.and_assoc, hkey]

theorem decode_and_mask (hi : i ∈ all) (w : UInt32) : i.decode (w &&& i.mask) = i.decode w := by
  obtain ⟨-, -, -, hargs⟩ := mask_pattern i hi
  refine List.map_congr_left fun a ha => ?_
  rw [← Argument.decode_and_mask, UInt32.and_assoc, hargs a ha, Argument.decode_and_mask]

theorem encode_decode (h : i.Matches w) : i.encode (i.decode w) = .ok (w &&& i.mask) := by
  have hfields : List.zipWith Argument.encode i.args (i.decode w) =
      (i.args.map Argument.mask).map (w &&& ·) := by
    rw [decode, List.zipWith_map_right, List.zipWith_self, List.map_map]
    exact List.map_congr_left fun a _ => a.encode_decode w
  rw [encode, if_neg (by simp), hfields, ← h.and_keyMask, foldl_and_or]
  rfl

end Decoding

end Instruction

end MipsToolchain.Isa
