import MipsToolchain.ByteOrder
import MipsToolchain.Isa.Field
import Mathlib.Tactic.Ring
import Mathlib.Data.Nat.Bitwise

namespace MipsToolchain

theorem or_eq_add_of_dvd {k x y : Nat} (hx : 2 ^ k ∣ x) (hy : y < 2 ^ k) : x ||| y = x + y := by
  obtain ⟨q, rfl⟩ := hx
  exact (Nat.two_pow_add_eq_or_of_lt hy q).symm

theorem and_high_eq {k n x : Nat} (hk : k ≤ n) (hx : x < 2 ^ n) :
    x &&& (2 ^ n - 2 ^ k) = x / 2 ^ k * 2 ^ k := by
  have hmask : 2 ^ n - 2 ^ k = (2 ^ (n - k) - 1) <<< k := by
    rw [Nat.shiftLeft_eq, Nat.sub_mul, ← Nat.pow_add, Nat.sub_add_cancel hk, Nat.one_mul]
  have hdiv : x / 2 ^ k * 2 ^ k = (x >>> k) <<< k := by
    rw [Nat.shiftLeft_eq, Nat.shiftRight_eq_div_pow]
  rw [hmask, hdiv]
  apply Nat.eq_of_testBit_eq
  intro i
  simp only [Nat.testBit_and, Nat.testBit_shiftLeft, Nat.testBit_two_pow_sub_one,
    Nat.testBit_shiftRight]
  by_cases hi : k ≤ i
  · rw [Nat.add_sub_cancel' hi]
    by_cases hn : i < n
    · simp [hi, show i - k < n - k by omega]
    · have hfalse : x.testBit i = false :=
        Nat.testBit_lt_two_pow (Nat.lt_of_lt_of_le hx (Nat.pow_le_pow_right (by omega) (by omega)))
      simp [hfalse]
  · simp [hi]

section Word

variable (w x : UInt32)

theorem toNat_or_of_lt {k : Nat} (hw : 2 ^ k ∣ w.toNat) (hx : x.toNat < 2 ^ k) :
    (w ||| x).toNat = w.toNat + x.toNat := by
  rw [UInt32.toNat_or, or_eq_add_of_dvd hw hx]

theorem toNat_low16 : (w &&& 0xffff).toNat = w.toNat % 0x10000 := by
  rw [UInt32.toNat_and]
  exact Nat.and_two_pow_sub_one_eq_mod _ 16

theorem toNat_low26 : (w &&& 0x03ffffff).toNat = w.toNat % 0x4000000 := by
  rw [UInt32.toNat_and]
  exact Nat.and_two_pow_sub_one_eq_mod _ 26

theorem toNat_low5 : (w &&& 0x1f).toNat = w.toNat % 32 := by
  rw [UInt32.toNat_and]
  exact Nat.and_two_pow_sub_one_eq_mod _ 5

theorem toNat_high16 : (w &&& 0xffff0000).toNat = w.toNat / 0x10000 * 0x10000 := by
  rw [UInt32.toNat_and]
  exact and_high_eq (k := 16) (n := 32) (by decide) w.toNat_lt

theorem toNat_high6 : (w &&& 0xfc000000).toNat = w.toNat / 0x4000000 * 0x4000000 := by
  rw [UInt32.toNat_and]
  exact and_high_eq (k := 26) (n := 32) (by decide) w.toNat_lt

theorem toNat_high4 : (w &&& 0xf0000000).toNat = w.toNat / 0x10000000 * 0x10000000 := by
  rw [UInt32.toNat_and]
  exact and_high_eq (k := 28) (n := 32) (by decide) w.toNat_lt

theorem toNat_splice16 :
    ((w &&& 0xffff0000) ||| (x &&& 0xffff)).toNat =
      w.toNat / 0x10000 * 0x10000 + x.toNat % 0x10000 := by
  rw [toNat_or_of_lt (k := 16), toNat_high16, toNat_low16]
  · rw [toNat_high16]
    exact Nat.dvd_mul_left _ _
  · rw [toNat_low16]
    exact Nat.mod_lt _ (by decide)

end Word

namespace Isa

theorem toNat_lowWord (v : Int64) : ((lowWord v).toNat : Int) = v.toInt % 0x100000000 := by
  have hv : v.toUInt64.toNat = v.toBitVec.toNat := rfl
  have hi := Int64.toInt_toBitVec v
  rw [BitVec.toInt_eq_toNat_bmod] at hi
  rw [lowWord, UInt64.toNat_toUInt32, hv, ← hi, Int.bmod]
  split <;> omega

theorem lowWord_field (w : UInt32) : lowWord (Int64.ofNat w.toNat) = w := by
  have hw := w.toNat_lt
  have hlow := toNat_lowWord (Int64.ofNat w.toNat)
  rw [Int64.toInt_ofNat_of_lt (by omega)] at hlow
  rw [← UInt32.toNat_inj]
  omega

theorem toNat_withImmediateField (w x : UInt32) :
    (withImmediateField w x).toNat = w.toNat / 0x10000 * 0x10000 + x.toNat % 0x10000 :=
  toNat_splice16 w x

theorem toNat_withJumpField (w x : UInt32) :
    (withJumpField w x).toNat = w.toNat / 0x4000000 * 0x4000000 + x.toNat % 0x4000000 := by
  have hmask : ~~~targetMask = 0xfc000000 := rfl
  rw [withJumpField, hmask, targetMask, toNat_or_of_lt (k := 26), toNat_high6, toNat_low26]
  · rw [toNat_high6]
    exact Nat.dvd_mul_left _ _
  · rw [toNat_low26]
    exact Nat.mod_lt _ (by decide)

theorem toInt_add_mod (a b : Int64) :
    (a + b).toInt % 0x100000000 = (a.toInt + b.toInt) % 0x100000000 := by
  rw [Int64.toInt_add, Int.bmod_def]
  split <;> omega

theorem lowWord_add (a b : Int64) : lowWord a + lowWord b = lowWord (a + b) := by
  have ha := toNat_lowWord a
  have hb := toNat_lowWord b
  have hab := toNat_lowWord (a + b)
  rw [toInt_add_mod] at hab
  rw [← UInt32.toNat_inj, UInt32.toNat_add]
  omega

theorem toInt_sub_mod (a b : Int64) :
    (a - b).toInt % 0x100000000 = (a.toInt - b.toInt) % 0x100000000 := by
  rw [Int64.toInt_sub, Int.bmod_def]
  split <;> omega

theorem toInt_ofNat_mod (n : Nat) :
    (Int64.ofNat n).toInt % 0x100000000 = (n : Int) % 0x100000000 := by
  rw [Int64.toInt_ofNat', Int64.size, Int.bmod_def]
  split <;> omega

theorem toInt_shiftRight_two (v : Int64) : (v >>> 2).toInt = v.toInt / 4 := by
  have hb : (v >>> 2).toBitVec = v.toBitVec.sshiftRight 2 := by
    rw [Int64.toBitVec_shiftRight]
    rfl
  rw [← Int64.toInt_toBitVec, hb, BitVec.toInt_sshiftRight, Int64.toInt_toBitVec,
    Int.shiftRight_eq_div_pow]
  rfl

theorem dvd_toInt_of_mod_four {v : Int64} (h : v % 4 = 0) : 4 ∣ v.toInt := by
  have ht := congrArg Int64.toInt h
  rw [Int64.toInt_mod] at ht
  exact Int.dvd_of_tmod_eq_zero ht

theorem mod_four_eq_zero_iff {v : Int64} : v % 4 = 0 ↔ 4 ∣ v.toInt := by
  refine ⟨dvd_toInt_of_mod_four, fun h => ?_⟩
  rw [← Int64.toInt_inj, Int64.toInt_mod]
  exact Int.tmod_eq_zero_of_dvd h

theorem mod_four_add_iff {a b : Int64} (hb : b % 4 = 0) : (a + b) % 4 = 0 ↔ a % 4 = 0 := by
  rw [mod_four_eq_zero_iff] at hb ⊢
  rw [mod_four_eq_zero_iff, Int64.toInt_add, Int.bmod_def]
  split <;> omega

theorem mod_four_neg {a : Int64} (h : a % 4 = 0) : (-a) % 4 = 0 := by
  rw [mod_four_eq_zero_iff] at h ⊢
  rw [Int64.toInt_neg, Int.bmod_def]
  split <;> omega

theorem bmod_of_low {w : UInt32} {v : Int64}
    (h : w.toNat % 0x10000 = (lowWord v).toNat % 0x10000) :
    (w.toNat : Int).bmod 0x10000 = v.toInt.bmod 0x10000 := by
  have hlow := toNat_lowWord v
  rw [Int.bmod_def, Int.bmod_def]
  split <;> split <;> omega

theorem bmod_of_fits {v : Int64} (h : fitsSigned v 16) : v.toInt.bmod 0x10000 = v.toInt := by
  simp only [fitsSigned, decide_eq_true_eq] at h
  obtain ⟨-, -, hle, hlt⟩ := h
  exact Int.bmod_eq_of_le hle hlt

theorem toInt_signExtend16 (w : UInt32) :
    (signExtend (w &&& 0xffff) 16).toInt = (w.toNat : Int).bmod 0x10000 := by
  rw [signExtend, if_pos (by decide), toNat_low16]
  have hlo : -0x8000 ≤ (w.toNat : Int).bmod 0x10000 := by
    rw [Int.bmod_def]
    split <;> omega
  have hhi : (w.toNat : Int).bmod 0x10000 < 0x8000 := by
    rw [Int.bmod_def]
    split <;> omega
  have heq : ((w.toNat % 0x10000 : Nat) : Int).bmod (Nat.pow 2 16) = (w.toNat : Int).bmod 0x10000 := by
    rw [Int.natCast_emod]
    exact Int.emod_bmod _ 0x10000
  rw [heq]
  exact Int64.toInt_ofInt_of_le (by omega) (by omega)

end Isa

namespace ByteOrder

theorem toNat_shl_or_byte (acc : UInt32) (b : UInt8) :
    (acc <<< 8 ||| b.toUInt32).toNat = acc.toNat * 256 % 0x100000000 + b.toNat := by
  have hshl : (acc <<< 8).toNat = acc.toNat * 256 % 0x100000000 := by
    rw [UInt32.toNat_shiftLeft, Nat.shiftLeft_eq]
    rfl
  have hb := b.toNat_lt
  rw [toNat_or_of_lt (k := 8), hshl, UInt8.toNat_toUInt32]
  · rw [hshl]
    omega
  · rw [UInt8.toNat_toUInt32]
    omega

theorem ofBytes_wordBytes (o : ByteOrder) (w : UInt32) : o.ofBytes (o.wordBytes w) = w := by
  have hw := w.toNat_lt
  have h24 : (w >>> 24).toUInt8.toNat = w.toNat / 0x1000000 % 256 := by
    simp [UInt32.toNat_shiftRight, Nat.shiftRight_eq_div_pow]
  have h16 : (w >>> 16).toUInt8.toNat = w.toNat / 0x10000 % 256 := by
    simp [UInt32.toNat_shiftRight, Nat.shiftRight_eq_div_pow]
  have h8 : (w >>> 8).toUInt8.toNat = w.toNat / 0x100 % 256 := by
    simp [UInt32.toNat_shiftRight, Nat.shiftRight_eq_div_pow]
  have h0 : w.toUInt8.toNat = w.toNat % 256 := by simp
  rw [ofBytes, wordBytes, arrange_arrange, ← UInt32.toNat_inj]
  simp only [fold, List.foldl_cons, List.foldl_nil, toNat_shl_or_byte, h24, h16, h8, h0,
    UInt32.toNat_zero]
  omega

theorem toNat_fold (a b c d : UInt8) :
    (fold [a, b, c, d]).toNat = ((a.toNat * 256 + b.toNat) * 256 + c.toNat) * 256 + d.toNat := by
  have ha := a.toNat_lt
  have hb := b.toNat_lt
  have hc := c.toNat_lt
  simp only [fold, List.foldl_cons, List.foldl_nil, toNat_shl_or_byte, UInt32.toNat_zero]
  omega

theorem wordBytes_ofBytes (o : ByteOrder) (a b c d : UInt8) :
    o.wordBytes (o.ofBytes [a, b, c, d]) = [a, b, c, d] := by
  have hbytes : ∀ a b c d : UInt8, (fold [a, b, c, d] >>> 24).toUInt8 = a ∧
      (fold [a, b, c, d] >>> 16).toUInt8 = b ∧ (fold [a, b, c, d] >>> 8).toUInt8 = c ∧
      (fold [a, b, c, d]).toUInt8 = d := by
    intro a b c d
    have ha := a.toNat_lt
    have hb := b.toNat_lt
    have hc := c.toNat_lt
    have hd := d.toNat_lt
    simp only [← UInt8.toNat_inj, UInt32.toNat_toUInt8, UInt32.toNat_shiftRight, toNat_fold,
      Nat.shiftRight_eq_div_pow]
    refine ⟨?_, ?_, ?_, ?_⟩ <;> simp <;> omega
  cases o with
  | big =>
    obtain ⟨ha, hb, hc, hd⟩ := hbytes a b c d
    simp [wordBytes, ofBytes, arrange, ha, hb, hc, hd]
  | little =>
    obtain ⟨hd, hc, hb, ha⟩ := hbytes d c b a
    simp [wordBytes, ofBytes, arrange, ha, hb, hc, hd]

theorem ofBytes_eq_zero_iff (o : ByteOrder) {a b c d : UInt8} :
    o.ofBytes [a, b, c, d] = 0 ↔ a = 0 ∧ b = 0 ∧ c = 0 ∧ d = 0 := by
  have hzero : o.wordBytes 0 = [0, 0, 0, 0] := by cases o <;> rfl
  constructor
  · intro h
    have hbytes := wordBytes_ofBytes o a b c d
    rw [h, hzero] at hbytes
    simpa [eq_comm] using hbytes
  · rintro ⟨rfl, rfl, rfl, rfl⟩
    rw [← hzero, ofBytes_wordBytes]

end ByteOrder

end MipsToolchain
