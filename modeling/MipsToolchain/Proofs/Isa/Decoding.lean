import MipsToolchain.Isa.Table
import MipsToolchain.Proofs.Word.Bits
import Mathlib.Data.List.Nodup

namespace MipsToolchain.Isa

theorem toNat_shl_two (w : UInt32) : (w <<< (2 : UInt32)).toNat = 4 * w.toNat % 0x100000000 := by
  rw [UInt32.toNat_shiftLeft, Nat.shiftLeft_eq, Nat.mul_comm]
  rfl

theorem toNat_branchTarget (pc : UInt32) (offset : Int64) :
    ((branchTarget pc offset).toNat : Int) = (pc.toNat + 4 + 4 * offset.toInt) % 0x100000000 := by
  have hlow := toNat_lowWord offset
  have h4 : (4 : UInt32).toNat = 4 := rfl
  rw [branchTarget, UInt32.toNat_add, UInt32.toNat_add, toNat_shl_two, h4]
  omega

theorem toNat_jumpTarget (pc w : UInt32) :
    (jumpTarget pc (Int64.ofNat (w >>> 0 &&& targetMask).toNat)).toNat =
      (pc.toNat + 4) % 0x100000000 / 0x10000000 * 0x10000000 + 4 * (w.toNat % 0x4000000) := by
  have hzero : w >>> 0 = w := by
    rw [← UInt32.toNat_inj, UInt32.toNat_shiftRight]
    rfl
  have hfield : (lowWord (Int64.ofNat (w &&& targetMask).toNat)).toNat = w.toNat % 0x4000000 := by
    have hlow := toNat_lowWord (Int64.ofNat (w &&& targetMask).toNat)
    rw [targetMask, toNat_low26, Int64.toInt_ofNat_of_lt (by omega)] at hlow
    rw [targetMask, toNat_low26]
    omega
  have h4 : (4 : UInt32).toNat = 4 := rfl
  have hshl : (lowWord (Int64.ofNat (w &&& targetMask).toNat) <<< (2 : UInt32)).toNat =
      4 * (w.toNat % 0x4000000) := by
    rw [toNat_shl_two, hfield]
    omega
  rw [hzero, jumpTarget, toNat_or_of_lt (k := 28), toNat_high4, UInt32.toNat_add, hshl, h4]
  · rw [toNat_high4]
    exact Nat.dvd_mul_left _ _
  · rw [hshl]
    omega
section Keys

theorem or_and_distrib (a b mask : UInt32) :
    (a ||| b) &&& mask = (a &&& mask) ||| (b &&& mask) := by
  rw [← UInt32.toNat_inj]
  simp only [UInt32.toNat_and, UInt32.toNat_or, Nat.and_or_distrib_right]

@[simp]
theorem opcodeOf_or (a b : UInt32) : opcodeOf (a ||| b) = opcodeOf a ||| opcodeOf b := by
  rw [opcodeOf, UInt32.shiftRight_or, UInt32.toUInt8_or]
  rfl

theorem toNat_opcodeOf (w : UInt32) : (opcodeOf w).toNat = w.toNat / 0x4000000 := by
  have hw := w.toNat_lt
  rw [opcodeOf, UInt32.toNat_toUInt8, UInt32.toNat_shiftRight, Nat.shiftRight_eq_div_pow]
  change w.toNat / 0x4000000 % 256 = _
  omega

/-- The bits that tell branches with the same opcode apart. -/
def branchSelector (w : UInt32) : UInt8 := (w >>> 16 &&& registerMask).toUInt8

theorem toNat_branchSelector (w : UInt32) : (branchSelector w).toNat = w.toNat / 0x10000 % 32 := by
  rw [branchSelector, UInt32.toNat_toUInt8, registerMask, toNat_low5, UInt32.toNat_shiftRight,
    Nat.shiftRight_eq_div_pow]
  change w.toNat / 0x10000 % 32 % 256 = _
  omega

@[simp]
theorem branchSelector_or (a b : UInt32) :
    branchSelector (a ||| b) = branchSelector a ||| branchSelector b := by
  rw [branchSelector, UInt32.shiftRight_or, or_and_distrib, UInt32.toUInt8_or]
  rfl

theorem selectorOf_eq {opcode : UInt8} (h : opcode ≠ special) (h' : opcode ≠ special2)
    (w : UInt32) : selectorOf opcode w = if opcode = regimm then branchSelector w else 0 := by
  rw [selectorOf, if_neg (by simp [h, h'])]
  rfl

end Keys

section Arguments

variable (op : Operand)

theorem toNat_encode_rs :
    (Argument.rs.encode op).toNat = (lowWord op.value).toNat % 32 * 0x200000 := by
  have hlt := Nat.mod_lt (lowWord op.value).toNat (show 0 < 32 by decide)
  rw [Argument.encode, UInt32.toNat_shiftLeft, registerMask, toNat_low5, Nat.shiftLeft_eq]
  exact Nat.mod_eq_of_lt (Nat.lt_trans (Nat.mul_lt_mul_of_pos_right hlt (by decide)) (by decide))

theorem toNat_encode_rt :
    (Argument.rt.encode op).toNat = (lowWord op.value).toNat % 32 * 0x10000 := by
  have hlt := Nat.mod_lt (lowWord op.value).toNat (show 0 < 32 by decide)
  rw [Argument.encode, UInt32.toNat_shiftLeft, registerMask, toNat_low5, Nat.shiftLeft_eq]
  exact Nat.mod_eq_of_lt (Nat.lt_trans (Nat.mul_lt_mul_of_pos_right hlt (by decide)) (by decide))

theorem toNat_encode_branch :
    (Argument.branch.encode op).toNat = (lowWord op.value).toNat % 0x10000 :=
  toNat_low16 _

theorem toNat_encode_target :
    (Argument.target.encode op).toNat = (lowWord op.value).toNat % 0x4000000 :=
  toNat_low26 _

end Arguments

def Instruction.Matches (i : Instruction) (w : UInt32) : Prop :=
  opcodeOf w = i.opcode ∧ selectorOf i.opcode w = i.selector

instance (i : Instruction) (w : UInt32) : Decidable (i.Matches w) :=
  inferInstanceAs (Decidable (_ ∧ _))

theorem Table.find?_eq {t : Table} {i : Instruction} (hi : i ∈ t.instructions) {w : UInt32}
    (h : i.Matches w) : t.find? w = some i := by
  obtain ⟨ho, hs⟩ := h
  unfold Table.find?
  cases hf : t.instructions.find?
      fun i => i.opcode == opcodeOf w && i.selector == selectorOf (opcodeOf w) w with
  | none =>
    have hnone := List.find?_eq_none.mp hf i hi
    simp [ho, hs] at hnone
  | some j =>
    have hj := List.mem_of_find?_eq_some hf
    have hkey := List.find?_some hf
    simp only [ho, hs, Bool.and_eq_true, beq_iff_eq] at hkey
    have hmem := fun k (hk : k ∈ t.instructions) => (List.mem_filter.mp hk).1
    have heq := List.inj_on_of_nodup_map Instruction.keys_nodup (hmem j hj) (hmem i hi)
      (Prod.ext hkey.1 hkey.2)
    rw [heq]

theorem Table.mem_all {t : Table} {i : Instruction} (hi : i ∈ t.instructions) :
    i ∈ Instruction.all :=
  (List.mem_filter.mp hi).1

theorem Table.decode_eq_some_iff {t : Table} {w : UInt32} {d : Decoded} :
    t.decode w = some d ↔ d.instruction ∈ t.instructions ∧ d.instruction.Matches w ∧
      d.operands = d.instruction.decode w := by
  constructor
  · intro h
    obtain ⟨i, hi, rfl⟩ := Option.map_eq_some_iff.mp h
    have hkey := List.find?_some hi
    simp only [Bool.and_eq_true, beq_iff_eq] at hkey
    exact ⟨List.mem_of_find?_eq_some hi, ⟨hkey.1.symm, hkey.1 ▸ hkey.2.symm⟩, rfl⟩
  · rintro ⟨hi, hm, ho⟩
    rw [decode, find?_eq hi hm, Option.map_some, ← ho]

theorem Table.disassemble_eq {t : Table} {i : Instruction} (hi : i ∈ t.instructions) {w : UInt32}
    (h : i.Matches w) (hw : w ≠ 0) (pc : UInt32) :
    t.disassemble w pc = i.render (i.args.map fun a => a.renderAt pc (a.decode w)) := by
  rw [Table.disassemble, if_neg hw, Table.decode, Table.find?_eq hi h]
  simp only [Option.map_some, Instruction.decode]
  rw [List.zipWith_map_right, List.zipWith_self]

namespace Instruction

/-- Branches keep their displacement behind at most two registers, and no other field reaches into
the low half. -/
theorem branch_pattern : ∀ i ∈ all, .branch ∈ i.args →
    (i.args = [.rs, .rt, .branch] ∧ i.opcode ≠ regimm ∨ i.args = [.rs, .branch]) ∧
    i.opcode ≠ special ∧ i.opcode ≠ special2 ∧ i.Matches i.skeleton ∧
    i.skeleton.toNat % 0x10000 = 0 := by
  decide +kernel

theorem jump_pattern : ∀ i ∈ all, .target ∈ i.args →
    i.args = [.target] ∧ i.opcode ≠ special ∧ i.opcode ≠ special2 ∧ i.opcode ≠ regimm ∧
    i.Matches i.skeleton ∧ i.skeleton.toNat % 0x4000000 = 0 := by
  decide +kernel

theorem encode_eq_ok {i : Instruction} {ops : List Operand} {w : UInt32}
    (h : i.encode ops = .ok w) : ops.length = i.args.length ∧
      w = (List.zipWith Argument.encode i.args ops).foldl (· ||| ·) i.skeleton := by
  unfold encode at h
  split at h
  · cases h
  · next hl =>
    cases h
    exact ⟨by simpa using hl, rfl⟩

theorem Matches.ne_zero {i : Instruction} {w : UInt32} (h : i.Matches w)
    (ho : i.opcode ≠ special) : w ≠ 0 := by
  rintro rfl
  exact ho h.1.symm

theorem Matches.congr {i : Instruction} {w w' : UInt32} (h : i.Matches w)
    (ho : i.opcode ≠ special) (ho' : i.opcode ≠ special2)
    (hw : w'.toNat / 0x10000 = w.toNat / 0x10000) : i.Matches w' := by
  have hop : opcodeOf w' = opcodeOf w := by
    rw [← UInt8.toNat_inj, toNat_opcodeOf, toNat_opcodeOf]
    omega
  have hsel : branchSelector w' = branchSelector w := by
    rw [← UInt8.toNat_inj, toNat_branchSelector, toNat_branchSelector, hw]
  refine ⟨hop.trans h.1, ?_⟩
  rw [selectorOf_eq ho ho', hsel, ← selectorOf_eq ho ho']
  exact h.2

section Branches

theorem Matches.or {i : Instruction} {w x : UInt32} (h : i.Matches w) (ho : i.opcode ≠ special)
    (ho' : i.opcode ≠ special2) (hx : x.toNat < 0x4000000)
    (hs : i.opcode = regimm → x.toNat / 0x10000 % 32 = 0) : i.Matches (w ||| x) := by
  have hop : opcodeOf x = 0 := by
    rw [← UInt8.toNat_inj, toNat_opcodeOf]
    exact Nat.div_eq_of_lt hx
  refine ⟨by rw [opcodeOf_or, hop, UInt8.or_zero, h.1], ?_⟩
  have hsel := h.2
  rw [selectorOf_eq ho ho'] at hsel ⊢
  split
  · next hreg =>
    have hzero : branchSelector x = 0 := by
      rw [← UInt8.toNat_inj, toNat_branchSelector, hs hreg]
      rfl
    rw [branchSelector_or, hzero, UInt8.or_zero]
    rwa [if_pos hreg] at hsel
  · next hreg => rwa [if_neg hreg] at hsel

theorem toNat_or_mod (k : Nat) (w x : UInt32) :
    (w ||| x).toNat % 2 ^ k = w.toNat % 2 ^ k ||| x.toNat % 2 ^ k := by
  rw [UInt32.toNat_or, Nat.or_mod_two_pow]

theorem low_or {w x : UInt32} (h : w.toNat % 0x10000 = 0) :
    (w ||| x).toNat % 0x10000 = x.toNat % 0x10000 := by
  refine (toNat_or_mod 16 w x).trans ?_
  change w.toNat % 0x10000 ||| x.toNat % 0x10000 = _
  rw [h, Nat.zero_or]

theorem encode_branch {i : Instruction} (hi : i ∈ all) (hb : .branch ∈ i.args)
    {ops : List Operand} {w : UInt32} (h : i.encode ops = .ok w) :
    ∃ op, ops.getLast? = some op ∧ i.Matches w ∧
      w.toNat % 0x10000 = (lowWord op.value).toNat % 0x10000 := by
  obtain ⟨hl, rfl⟩ := encode_eq_ok h
  obtain ⟨hargs, ho, ho', hskel, hlow⟩ := branch_pattern i hi hb
  -- A branch compares two registers or one. Either way nothing but the displacement is in the low
  -- half.
  rcases hargs with ⟨hargs, hreg⟩ | hargs
  · rw [hargs] at hl ⊢
    match ops, hl with
    | [a, b, c], _ =>
      have hrs := toNat_encode_rs a
      have hrt := toNat_encode_rt b
      have hbr := toNat_encode_branch c
      have hfirst := low_or (x := Argument.rs.encode a) hlow
      have hsecond : ((i.skeleton ||| Argument.rs.encode a) ||| Argument.rt.encode b).toNat %
          0x10000 = 0 := by
        rw [low_or] <;> omega
      refine ⟨c, rfl, ?_, ?_⟩
      · exact ((hskel.or ho ho' (by omega) (by omega)).or ho ho' (by omega)
          fun h => absurd h hreg).or ho ho' (by omega) (by omega)
      · refine (low_or hsecond).trans ?_
        rw [hbr, Nat.mod_mod]
  · rw [hargs] at hl ⊢
    match ops, hl with
    | [a, c], _ =>
      have hrs := toNat_encode_rs a
      have hbr := toNat_encode_branch c
      have hfirst : (i.skeleton ||| Argument.rs.encode a).toNat % 0x10000 = 0 := by
        rw [low_or hlow]
        omega
      refine ⟨c, rfl, ?_, ?_⟩
      · exact (hskel.or ho ho' (by omega) (by omega)).or ho ho' (by omega) (by omega)
      · refine (low_or hfirst).trans ?_
        rw [hbr, Nat.mod_mod]

theorem disassemble_branch {t : Table} {i : Instruction} (hi : i ∈ t.instructions)
    (hb : .branch ∈ i.args) {w : UInt32} (h : i.Matches w) (pc : UInt32) :
    ∃ texts, t.disassemble w pc = i.render
      (texts ++ ["0x" ++ Text.hexWord (branchTarget pc (signExtend (w &&& 0xffff) 16))]) := by
  obtain ⟨hargs, ho, -⟩ := branch_pattern i (List.mem_filter.mp hi).1 hb
  rw [Table.disassemble_eq hi h (h.ne_zero ho)]
  rcases hargs with ⟨hargs, -⟩ | hargs
  · rw [hargs]
    exact ⟨[_, _], rfl⟩
  · rw [hargs]
    exact ⟨[_], rfl⟩

end Branches

section Jumps

theorem encode_target {i : Instruction} (hi : i ∈ all) (hb : .target ∈ i.args)
    {ops : List Operand} {w : UInt32} (h : i.encode ops = .ok w) :
    ∃ op, ops.getLast? = some op ∧ w.toNat / 0x4000000 = i.skeleton.toNat / 0x4000000 ∧
      w.toNat % 0x4000000 = (lowWord op.value).toNat % 0x4000000 := by
  obtain ⟨hl, rfl⟩ := encode_eq_ok h
  obtain ⟨hargs, -, -, -, -, hlow⟩ := jump_pattern i hi hb
  rw [hargs] at hl ⊢
  match ops, hl with
  | [a], _ =>
    have ht := toNat_encode_target a
    have hsum : (i.skeleton ||| Argument.target.encode a).toNat =
        i.skeleton.toNat + (Argument.target.encode a).toNat :=
      toNat_or_of_lt (k := 26) _ _ (Nat.dvd_of_mod_eq_zero hlow) (by omega)
    refine ⟨a, rfl, ?_, ?_⟩
    · change UInt32.toNat (_ ||| _) / _ = _
      omega
    · change UInt32.toNat (_ ||| _) % _ = _
      omega

theorem matches_target {i : Instruction} (hi : i ∈ all) (hb : .target ∈ i.args) {w : UInt32}
    (h : w.toNat / 0x4000000 = i.skeleton.toNat / 0x4000000) : i.Matches w := by
  obtain ⟨-, ho, ho', hreg, ⟨hop, hsel⟩, -⟩ := jump_pattern i hi hb
  refine ⟨?_, ?_⟩
  · rw [← hop, ← UInt8.toNat_inj, toNat_opcodeOf, toNat_opcodeOf, h]
  · rw [selectorOf_eq ho ho', if_neg hreg] at hsel ⊢
    exact hsel

theorem disassemble_target {t : Table} {i : Instruction} (hi : i ∈ t.instructions)
    (hb : .target ∈ i.args) {w : UInt32} (h : i.Matches w) (pc : UInt32) :
    t.disassemble w pc = i.render
      ["0x" ++ Text.hexWord (jumpTarget pc (Int64.ofNat (w >>> 0 &&& targetMask).toNat))] := by
  obtain ⟨hargs, ho, -⟩ := jump_pattern i (List.mem_filter.mp hi).1 hb
  rw [Table.disassemble_eq hi h (h.ne_zero ho), hargs]
  rfl

end Jumps

end Instruction

def Argument.isHalf : Argument → Bool
  | immediate | unsigned | memory | branch => true
  | _ => false

theorem and_high_of_low_zero {w : UInt32} (h : w.toNat % 0x10000 = 0) :
    w &&& ~~~immediateMask = w := by
  have hmask : ~~~immediateMask = 0xffff0000 := rfl
  rw [← UInt32.toNat_inj, hmask, toNat_high16]
  omega

theorem or_low_eq_withImmediateField {w x : UInt32} (h : w.toNat % 0x10000 = 0) :
    w ||| (x &&& immediateMask) = withImmediateField w x := by
  rw [withImmediateField, and_high_of_low_zero h]

theorem or_low_eq_withJumpField {w x : UInt32} (h : w.toNat % 0x4000000 = 0) :
    w ||| (x &&& targetMask) = withJumpField w x := by
  have hw : w &&& ~~~targetMask = w := by
    have hmask : ~~~targetMask = 0xfc000000 := rfl
    rw [← UInt32.toNat_inj, hmask, toNat_high6]
    omega
  rw [withJumpField, hw]

namespace Argument

theorem low_encode_register {a : Argument} (ha : a = .rs ∨ a = .rt) (op : Operand) :
    (a.encode op).toNat % 0x10000 = 0 := by
  rcases ha with rfl | rfl
  · rw [toNat_encode_rs]
    omega
  · rw [toNat_encode_rt]
    omega

/-- Beside its value, an operand in the low half contributes at most a base register. -/
theorem encode_half {a : Argument} (ha : a.isHalf) (op : Operand) :
    ∃ base : UInt32, base.toNat % 0x10000 = 0 ∧
      ∀ n, a.encode { op with value := n } = base ||| (lowWord n &&& immediateMask) := by
  cases a with
  | rs | rt | rd | shamt | target => cases ha
  | immediate | unsigned | branch => exact ⟨0, rfl, fun n => (UInt32.zero_or ..).symm⟩
  | memory =>
    refine ⟨(op.base.index.toUInt32 &&& registerMask) <<< 21, ?_, fun n => rfl⟩
    have hlt := Nat.mod_lt op.base.index.toUInt32.toNat (show 0 < 32 by decide)
    rw [UInt32.toNat_shiftLeft, registerMask, toNat_low5, Nat.shiftLeft_eq]
    change _ % 32 * 0x200000 % 0x100000000 % 0x10000 = 0
    omega

end Argument

namespace Instruction

theorem half_pattern : ∀ i ∈ all, ∀ a ∈ i.args, a.isHalf →
    i.args.getLast? = some a ∧ (∀ b ∈ i.args.dropLast, b = .rs ∨ b = .rt) ∧
      i.skeleton.toNat % 0x10000 = 0 := by
  decide +kernel

theorem low_foldl_or (ws : List UInt32) (w : UInt32) (hw : w.toNat % 0x10000 = 0)
    (h : ∀ x ∈ ws, x.toNat % 0x10000 = 0) : (ws.foldl (· ||| ·) w).toNat % 0x10000 = 0 := by
  induction ws generalizing w with
  | nil => exact hw
  | cons x ws ih =>
    rw [List.foldl_cons]
    refine ih _ ?_ fun y hy => h y (by simp [hy])
    rw [low_or hw]
    exact h x (by simp)

theorem low_zipWith_encode {as : List Argument} (h : ∀ b ∈ as, b = .rs ∨ b = .rt)
    (ops : List Operand) :
    ∀ x ∈ List.zipWith Argument.encode as ops, x.toNat % 0x10000 = 0 := by
  intro x hx
  rw [← List.map_uncurry_zip_eq_zipWith] at hx
  obtain ⟨⟨a, op⟩, hmem, rfl⟩ := List.mem_map.mp hx
  exact Argument.low_encode_register (h a (List.of_mem_zip hmem).1) op

theorem encode_half {i : Instruction} (hi : i ∈ all) {a : Argument} (ha : a ∈ i.args)
    (hhalf : a.isHalf) {regs : List Operand} {op : Operand}
    (hl : (regs ++ [op]).length = i.args.length) :
    ∃ w, ∀ n, i.encode (regs ++ [{ op with value := n }]) =
      .ok (withImmediateField w (lowWord n)) := by
  obtain ⟨hlast, hregs, hskel⟩ := half_pattern i hi a ha hhalf
  obtain ⟨base, hbase, henc⟩ := Argument.encode_half hhalf op
  obtain ⟨as, has⟩ := List.getLast?_eq_some_iff.mp hlast
  have hlen : as.length = regs.length := by
    rw [has, List.length_append, List.length_append] at hl
    simpa using hl.symm
  let front := (List.zipWith Argument.encode as regs).foldl (· ||| ·) i.skeleton
  have hfront : front.toNat % 0x10000 = 0 := by
    refine low_foldl_or _ _ hskel (low_zipWith_encode ?_ regs)
    simpa [has] using hregs
  refine ⟨front ||| base, fun n => ?_⟩
  have hlow : (front ||| base).toNat % 0x10000 = 0 := by rw [low_or hfront, hbase]
  rw [encode, if_neg (by simpa using hl), has, List.zipWith_append hlen, List.foldl_append,
    ← or_low_eq_withImmediateField hlow, UInt32.or_assoc, ← henc]
  rfl

theorem encode_jump {i : Instruction} (hi : i ∈ all) (ha : .target ∈ i.args) (op : Operand) :
    ∃ w, ∀ n, i.encode [{ op with value := n }] = .ok (withJumpField w (lowWord n)) := by
  obtain ⟨hargs, -, -, -, -, hskel⟩ := jump_pattern i hi ha
  refine ⟨i.skeleton, fun n => ?_⟩
  rw [encode, if_neg (by simp [hargs]), hargs, ← or_low_eq_withJumpField hskel]
  rfl

end Instruction

end MipsToolchain.Isa
