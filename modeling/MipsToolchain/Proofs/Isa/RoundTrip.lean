import MipsToolchain.Proofs.Isa.Masks

namespace MipsToolchain.Isa

namespace Argument

def bounds : Argument → Int × Int
  | rs | rt | rd | shamt => (0, 32)
  | immediate | memory | branch => (-0x8000, 0x8000)
  | unsigned => (0, 0x10000)
  | target => (0, 0x4000000)

/-- Whether the field of an argument can hold an operand. -/
structure InRange (a : Argument) (op : Operand) : Prop where
  least : a.bounds.1 ≤ op.value.toInt
  below : op.value.toInt < a.bounds.2
  base : if a = memory then op.base.index < 32 else op.base = Register.zero

instance (a : Argument) (op : Operand) : Decidable (a.InRange op) :=
  decidable_of_iff (a.bounds.1 ≤ op.value.toInt ∧ op.value.toInt < a.bounds.2 ∧
    if a = memory then op.base.index < 32 else op.base = Register.zero)
    ⟨fun ⟨hl, hb, h⟩ => ⟨hl, hb, h⟩, fun h => ⟨h.least, h.below, h.base⟩⟩

def width : Argument → Nat
  | rs | rt | rd | shamt => 5
  | immediate | unsigned | memory | branch => 16
  | target => 26

/-- The number that the field of an argument shows after it was given a number. -/
def cut (a : Argument) (n : Int) : Int :=
  match a with
  | rs | rt | rd | shamt => n % 32
  | immediate | memory | branch => n.bmod 0x10000
  | unsigned => n % 0x10000
  | target => n % 0x4000000

theorem cut_of_bounds {a : Argument} {n : Int} (hl : a.bounds.1 ≤ n) (hb : n < a.bounds.2) :
    a.cut n = n := by
  cases a with
  | rs | rt | rd | shamt | unsigned | target => exact Int.emod_eq_of_lt hl hb
  | immediate | memory | branch => exact Int.bmod_eq_of_le hl hb

theorem cut_mod (a : Argument) (n : Int) : a.cut n % 2 ^ a.width = n % 2 ^ a.width := by
  cases a with
  | rs | rt | rd | shamt | unsigned | target => exact Int.emod_emod_of_dvd n (Int.dvd_refl _)
  | immediate | memory | branch => exact Int.bmod_emod

theorem toInt_field {v : Int64} {x : UInt32} {k : Nat} (hx : x.toNat = (lowWord v).toNat % 2 ^ k)
    (hk : k = 5 ∨ k = 16 ∨ k = 26) : (Int64.ofNat x.toNat).toInt = v.toInt % 2 ^ k := by
  have hlow := toNat_lowWord v
  have hlt := x.toNat_lt
  rw [Int64.toInt_ofNat_of_lt (by omega)]
  rcases hk with rfl | rfl | rfl <;> omega

theorem toInt_signExtend_low {v : Int64} {x : UInt32}
    (hx : x &&& immediateMask = lowWord v &&& immediateMask) :
    (signExtend (x &&& immediateMask) 16).toInt = v.toInt.bmod 0x10000 := by
  have hlow := congrArg UInt32.toNat hx
  rw [immediateMask, toNat_low16, toNat_low16] at hlow
  rw [immediateMask, toInt_signExtend16, bmod_of_low hlow]

theorem encode_memory_low (op : Operand) :
    memory.encode op &&& immediateMask = lowWord op.value &&& immediateMask := by
  simp only [encode]
  rw [or_and_distrib, and_and_self, UInt32.shiftLeft_and, UInt32.and_assoc,
    show registerMask <<< 21 &&& immediateMask = 0 from rfl, UInt32.and_zero, UInt32.zero_or]

theorem value_decode_encode (a : Argument) (op : Operand) :
    (a.decode (a.encode op)).value.toInt = a.cut op.value.toInt := by
  have hreg : ∀ s : UInt32, s < 27 →
      (Int64.ofNat ((lowWord op.value &&& registerMask) <<< s >>> s &&& registerMask).toNat).toInt =
        op.value.toInt % 32 := by
    intro s hs
    rw [shiftRight_field _ hs]
    exact toInt_field (toNat_low5 _) (.inl rfl)
  cases a with
  | rs => exact hreg 21 (by decide)
  | rt => exact hreg 16 (by decide)
  | rd => exact hreg 11 (by decide)
  | shamt => exact hreg 6 (by decide)
  | immediate | branch => exact toInt_signExtend_low (and_and_self _ _)
  | memory => exact toInt_signExtend_low (encode_memory_low op)
  | unsigned =>
    simp only [encode, decode, UInt32.shiftRight_zero, and_and_self]
    exact toInt_field (toNat_low16 _) (.inr (.inl rfl))
  | target =>
    simp only [encode, decode, UInt32.shiftRight_zero, and_and_self]
    exact toInt_field (toNat_low26 _) (.inr (.inr rfl))

theorem base_decode_encode {a : Argument} {op : Operand}
    (h : if a = memory then op.base.index < 32 else op.base = Register.zero) :
    (a.decode (a.encode op)).base = op.base := by
  cases a with
  | rs | rt | rd | shamt | immediate | unsigned | branch | target => exact h.symm
  | memory =>
    have hindex : (op.base.index.toUInt32 &&& registerMask).toUInt8 = op.base.index := by
      have hlt : op.base.index.toNat < 32 := UInt8.lt_iff_toNat_lt.mp h
      rw [← UInt8.toNat_inj, UInt32.toNat_toUInt8, registerMask, toNat_low5, UInt8.toNat_toUInt32]
      omega
    have hhigh : memory.encode op >>> 21 &&& registerMask =
        op.base.index.toUInt32 &&& registerMask := by
      simp only [encode]
      rw [UInt32.shiftRight_or, or_and_distrib, shiftRight_field _ (by decide),
        UInt32.shiftRight_and, show immediateMask >>> 21 = 0 from rfl, UInt32.and_zero,
        UInt32.zero_and, UInt32.or_zero]
    simp only [decode]
    rw [hhigh, hindex]

theorem decode_encode {a : Argument} {op : Operand} (h : a.InRange op) :
    a.decode (a.encode op) = op := by
  have hvalue := a.value_decode_encode op
  rw [cut_of_bounds h.least h.below] at hvalue
  exact congr (congrArg Operand.mk (Int64.toInt_inj.mp hvalue)) (base_decode_encode h.base)

end Argument

namespace Instruction

section Encoding

theorem zipWith_encode_and {as : List Argument} {m : UInt32} (h : ∀ a ∈ as, a.mask &&& m = 0)
    (ops : List Operand) : ∀ x ∈ List.zipWith Argument.encode as ops, x &&& m = 0 := by
  intro x hx
  rw [← List.map_uncurry_zip_eq_zipWith] at hx
  obtain ⟨⟨a, op⟩, hmem, rfl⟩ := List.mem_map.mp hx
  exact Argument.encode_and_of_apart (h a (List.of_mem_zip hmem).1) op

theorem decode_foldl {as : List Argument} {ops : List Operand} (hl : as.length = ops.length)
    (hp : as.Pairwise fun a b => b.mask &&& a.mask = 0) {base : UInt32}
    (hb : ∀ a ∈ as, base &&& a.mask = 0) :
    as.map (·.decode ((List.zipWith Argument.encode as ops).foldl (· ||| ·) base)) =
      List.zipWith (fun a op => a.decode (a.encode op)) as ops := by
  induction as generalizing ops base with
  | nil => rfl
  | cons a as ih =>
    match ops, hl with
    | op :: ops, hl =>
      obtain ⟨hlater, hp⟩ := List.pairwise_cons.mp hp
      have hhead : (List.zipWith Argument.encode as ops).foldl (· ||| ·) (base ||| a.encode op) &&&
          a.mask = a.encode op := by
        rw [foldl_or_and (zipWith_encode_and hlater ops), or_and_distrib, hb a (by simp),
          UInt32.zero_or, Argument.encode_and_mask]
      have htail : ∀ b ∈ as, (base ||| a.encode op) &&& b.mask = 0 := by
        intro b hmem
        have happart : a.mask &&& b.mask = 0 := by rw [UInt32.and_comm, hlater b hmem]
        rw [or_and_distrib, hb b (by simp [hmem]), Argument.encode_and_of_apart happart,
          UInt32.or_zero]
      rw [List.map_cons, List.zipWith_cons_cons, List.foldl_cons, ih (Nat.succ.inj hl) hp htail,
        ← Argument.decode_and_mask, hhead, List.zipWith_cons_cons]

variable {i : Instruction} {ops : List Operand}

theorem decode_of_encode (hi : i ∈ all) {w : UInt32} (hw : i.encode ops = .ok w) :
    i.Matches w ∧ i.decode w = List.zipWith (fun a op => a.decode (a.encode op)) i.args ops := by
  obtain ⟨hl, rfl⟩ := encode_eq_ok hw
  obtain ⟨hskeleton, hpairs, -⟩ := mask_pattern i hi
  obtain ⟨hkey, hpairs⟩ := List.pairwise_cons.mp hpairs
  rw [List.pairwise_map] at hpairs
  have hkey : ∀ a ∈ i.args, a.mask &&& i.keyMask = 0 := by
    intro a ha
    exact hkey _ (List.mem_map_of_mem ha)
  have hbase : ∀ a ∈ i.args, i.skeleton &&& a.mask = 0 := by
    intro a ha
    rw [← hskeleton.and_keyMask, UInt32.and_assoc, UInt32.and_comm i.keyMask, hkey a ha,
      UInt32.and_zero]
  refine ⟨?_, decode_foldl hl.symm hpairs hbase⟩
  exact hskeleton.of_and_keyMask (foldl_or_and (zipWith_encode_and hkey ops) _)

theorem zipWith_decode_encode {as : List Argument} (hr : List.Forall₂ Argument.InRange as ops) :
    List.zipWith (fun a op => a.decode (a.encode op)) as ops = ops := by
  induction hr with
  | nil => rfl
  | cons h _ ih => rw [List.zipWith_cons_cons, ih, Argument.decode_encode h]

theorem decode_encode (hi : i ∈ all) (hr : List.Forall₂ Argument.InRange i.args ops) :
    ∃ w, i.encode ops = .ok w ∧ i.Matches w ∧ i.decode w = ops := by
  obtain ⟨w, hw⟩ : ∃ w, i.encode ops = .ok w := ⟨_, if_neg (by simpa using hr.length_eq.symm)⟩
  obtain ⟨hm, hd⟩ := decode_of_encode hi hw
  exact ⟨w, hw, hm, hd.trans (zipWith_decode_encode hr)⟩

end Encoding

end Instruction

namespace Table

section Encoded

variable {v : Version} {i : Instruction} {ops : List Operand}

/-- An instruction that is encoded with operands that its fields can hold is decoded again, with
the same operands. -/
theorem decode_encoded (hi : i ∈ (⟨v⟩ : Table).instructions)
    (hr : List.Forall₂ Argument.InRange i.args ops) :
    ∃ w, i.encode ops = .ok w ∧ (⟨v⟩ : Table).decode w = some ⟨i, ops⟩ := by
  obtain ⟨w, hw, hm, hd⟩ := Instruction.decode_encode (mem_all hi) hr
  exact ⟨w, hw, decode_eq_some_iff.mpr ⟨hi, hm, hd.symm⟩⟩

/-- A load with a negative offset. -/
theorem decode_encoded_load :
    Instruction.ofImmediate "lw" 0x23 [.rt, .memory] ∈ (⟨.mips1⟩ : Table).instructions ∧
      List.Forall₂ Argument.InRange [.rt, .memory] [⟨31, ⟨0⟩⟩, ⟨-4, ⟨29⟩⟩] ∧
      ∃ w, (Instruction.ofImmediate "lw" 0x23 [.rt, .memory]).encode [⟨31, ⟨0⟩⟩, ⟨-4, ⟨29⟩⟩] =
          .ok w ∧ (⟨.mips1⟩ : Table).decode w =
            some ⟨Instruction.ofImmediate "lw" 0x23 [.rt, .memory], [⟨31, ⟨0⟩⟩, ⟨-4, ⟨29⟩⟩]⟩ := by
  have hi : Instruction.ofImmediate "lw" 0x23 [.rt, .memory] ∈
      (⟨.mips1⟩ : Table).instructions := by decide
  have hr : List.Forall₂ Argument.InRange [.rt, .memory] [⟨31, ⟨0⟩⟩, ⟨-4, ⟨29⟩⟩] := by
    decide
  exact ⟨hi, hr, decode_encoded hi hr⟩

end Encoded

/-- A word that is decoded and encoded again. -/
def reencode (t : Table) (w : UInt32) : Option UInt32 :=
  (t.decode w).bind fun d => d.encode.toOption

theorem reencode_eq_some {t : Table} {w w' : UInt32} {d : Decoded} (hd : t.decode w = some d)
    (hw : d.encode = .ok w') : t.reencode w = some w' := by
  rw [reencode, hd, Option.bind_some, hw]
  rfl

/-- Decoding and encoding again keeps the bits that an instruction has a use for and clears all
others. The words that are left as they are include all encodings of operands that fields can
hold. -/
theorem reencode_projects (v : Version) :
    (∀ w d, (⟨v⟩ : Table).decode w = some d → ∃ w', d.encode = .ok w' ∧
      (⟨v⟩ : Table).decode w' = some d ∧
      (∀ k < 32, w'.toNat.testBit k = (d.instruction.covers k && w.toNat.testBit k)) ∧
      (⟨v⟩ : Table).reencode w' = some w') ∧
    ∀ i ∈ (⟨v⟩ : Table).instructions, ∀ ops, List.Forall₂ Argument.InRange i.args ops →
      ∀ w, i.encode ops = .ok w → (⟨v⟩ : Table).reencode w = some w := by
  constructor
  · intro w d h
    obtain ⟨hi, hm, ho⟩ := decode_eq_some_iff.mp h
    have hall := mem_all hi
    have hencode : d.encode = .ok (w &&& d.instruction.mask) := by
      rw [Decoded.encode, ho, Instruction.encode_decode hm]
    have hdecode : (⟨v⟩ : Table).decode (w &&& d.instruction.mask) = some d :=
      decode_eq_some_iff.mpr ⟨hi, Instruction.matches_and_mask hall hm,
        by rw [Instruction.decode_and_mask hall, ho]⟩
    refine ⟨_, hencode, hdecode, ?_, reencode_eq_some hdecode hencode⟩
    intro k hk
    rw [UInt32.toNat_and, Nat.testBit_and, Instruction.testBit_mask d.instruction hall k hk,
      Bool.and_comm]
  · intro i hi ops hr w hw
    obtain ⟨w', hw', hm, hd⟩ := Instruction.decode_encode (mem_all hi) hr
    obtain rfl : w' = w := Except.ok.inj (hw'.symm.trans hw)
    exact reencode_eq_some (d := ⟨i, ops⟩) (decode_eq_some_iff.mpr ⟨hi, hm, hd.symm⟩) hw

/-- A shift whose unused register is not zero loses it. -/
theorem reencode_projects_shift :
    ∃ w', (⟨.mips1⟩ : Table).reencode 0x03e84080 = some w' ∧
      (⟨.mips1⟩ : Table).reencode w' = some w' ∧ w'.toNat.testBit 25 = false := by
  have hd : (⟨.mips1⟩ : Table).decode 0x03e84080 =
      some ⟨Instruction.ofFunction "sll" 0x00 [.rd, .rt, .shamt],
        [⟨8, ⟨0⟩⟩, ⟨8, ⟨0⟩⟩, ⟨2, ⟨0⟩⟩]⟩ := by decide
  obtain ⟨w', hw, -, hbits, hfix⟩ := (reencode_projects .mips1).1 _ _ hd
  refine ⟨w', reencode_eq_some hd hw, hfix, ?_⟩
  rw [hbits 25 (by decide)]
  decide

end Table

end MipsToolchain.Isa
