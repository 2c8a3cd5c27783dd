import MipsToolchain.Text.RawText

namespace MipsToolchain.RawText

-- A zero byte inside of a name would end it in a string table.
def ZeroFree (n : RawText) : Prop := 0 ∉ n.bytes

instance (n : RawText) : Decidable n.ZeroFree := inferInstanceAs (Decidable (_ ∉ _))

theorem zeroFree_empty : empty.ZeroFree := by
  intro h
  cases h

theorem zero_mem_utf8EncodeChar {c : Char} (h : 0 ∈ String.utf8EncodeChar c) : c = '\x00' := by
  have hbyte : ∀ {n : Nat}, 0 = UInt8.ofNat n → n < 256 → n = 0 := by
    intro n hn hlt
    have hmod := congrArg UInt8.toNat hn
    rw [UInt8.toNat_ofNat', Nat.mod_eq_of_lt hlt] at hmod
    exact hmod.symm
  have hval : c.val.toNat = 0 := by
    unfold String.utf8EncodeChar at h
    dsimp only at h
    split at h
    · next hsmall => exact hbyte (List.mem_singleton.mp h) (by omega)
    · -- The bytes of all other characters have their highest bit.
      have hhigh : ∀ {n : Nat}, 0 < n → n < 256 → 0 ≠ UInt8.ofNat n := fun hpos hlt heq =>
        absurd (hbyte heq hlt) (by omega)
      refine absurd h ?_
      split
      · simp only [List.mem_cons, List.not_mem_nil, or_false, not_or]
        exact ⟨hhigh (by omega) (by omega), hhigh (by omega) (by omega)⟩
      · split
        · simp only [List.mem_cons, List.not_mem_nil, or_false, not_or]
          exact ⟨hhigh (by omega) (by omega), hhigh (by omega) (by omega),
            hhigh (by omega) (by omega)⟩
        · simp only [List.mem_cons, List.not_mem_nil, or_false, not_or]
          exact ⟨hhigh (by omega) (by omega), hhigh (by omega) (by omega),
            hhigh (by omega) (by omega), hhigh (by omega) (by omega)⟩
  exact Char.ext (UInt32.toNat_inj.mp hval)

theorem zeroFree_ofString {s : String} (h : '\x00' ∉ s.toList) : (ofString s).ZeroFree := by
  intro hzero
  obtain ⟨c, hc, hbyte⟩ := List.mem_flatMap.mp hzero
  exact h (zero_mem_utf8EncodeChar hbyte ▸ hc)

end MipsToolchain.RawText
