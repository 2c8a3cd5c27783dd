import MipsToolchain.Text.Hex
import Mathlib.Data.List.Induction
import Mathlib.Tactic.IntervalCases

namespace MipsToolchain.Text

theorem char_le {c d : Char} : c ≤ d ↔ c.toNat ≤ d.toNat := UInt32.le_iff_toNat_le

variable {b n d : Nat} {c : Char} {ds : List Char}

/-- How a digit of a base up to 16 is written. From ten on the digits are letters of either case. -/
def IsDigit (b d : Nat) (c : Char) : Prop :=
  d < b ∧ (c = d.digitChar ∨ c = d.digitChar.toUpper)

theorem digitValue?_eq_some (hb : b ≤ 16) : digitValue? b c = some d ↔ IsDigit b d c := by
  have hchar : c = Char.ofNat c.toNat := (Char.ofNat_toNat c).symm
  unfold digitValue? IsDigit
  rw [Option.filter_eq_some_iff, decide_eq_true_eq, and_comm]
  refine and_congr_right fun hd => ?_
  constructor
  · simp only [char_le]
    -- Each case leaves no more characters than a base of 16 has digits.
    generalize c.toNat = k at hchar
    subst hchar
    intro h
    split at h
    · next hk =>
      obtain rfl := Option.some.inj h
      obtain ⟨hlo, hhi⟩ : 48 ≤ k ∧ k ≤ 57 := hk
      interval_cases k <;> exact .inl rfl
    split at h
    · next hk =>
      obtain rfl := Option.some.inj h
      have hlo : 97 ≤ k := hk.1
      have hhi : k - 97 + 10 < 16 := Nat.lt_of_lt_of_le hd hb
      have hhi : k ≤ 102 := by omega
      interval_cases k <;> exact .inl rfl
    split at h
    · next hk =>
      obtain rfl := Option.some.inj h
      have hlo : 65 ≤ k := hk.1
      have hhi : k - 65 + 10 < 16 := Nat.lt_of_lt_of_le hd hb
      have hhi : k ≤ 70 := by omega
      interval_cases k <;> exact .inr rfl
    · cases h
  · have hvalue : ∀ d < 16, ∀ e, e = d.digitChar ∨ e = d.digitChar.toUpper →
        (if '0' ≤ e ∧ e ≤ '9' then some (e.toNat - '0'.toNat)
          else if 'a' ≤ e ∧ e ≤ 'z' then some (e.toNat - 'a'.toNat + 10)
          else if 'A' ≤ e ∧ e ≤ 'Z' then some (e.toNat - 'A'.toNat + 10)
          else none) = some d := by
      simp only [forall_eq_or_imp, forall_eq]
      decide
    exact hvalue d (by omega) c

theorem isSome_digitValue? (b : Nat) (c : Char) : (digitValue? b c).isSome ↔
    (48 ≤ c.toNat ∧ c.toNat ≤ 57 ∧ c.toNat < b + 48) ∨
      (65 ≤ c.toNat ∧ c.toNat ≤ 90 ∧ c.toNat + 10 < b + 65) ∨
      (97 ≤ c.toNat ∧ c.toNat ≤ 122 ∧ c.toNat + 10 < b + 97) := by
  unfold digitValue?
  simp only [char_le, Char.reduceToNat, Option.isSome_filter]
  repeat' split
  all_goals
    simp
    omega

theorem digitValue?_digitChar (hd : d < b) (hb : b ≤ 16) : digitValue? b d.digitChar = some d :=
  (digitValue?_eq_some hb).mpr ⟨hd, .inl rfl⟩

theorem numeral?_singleton (c : Char) : numeral? b [c] = digitValue? b c := by
  simp [numeral?]

theorem numeral?_concat {ds : List Char} (hds : ds ≠ []) (c : Char) :
    numeral? b (ds ++ [c]) =
      (numeral? b ds).bind fun n => (digitValue? b c).map (n * b + ·) := by
  simp [numeral?, hds, List.foldl_append]

theorem isSome_numeral? : (numeral? b ds).isSome ↔ ds ≠ [] ∧ ∀ c ∈ ds, (digitValue? b c).isSome := by
  induction ds using List.reverseRecOn with
  | nil => simp [numeral?]
  | append_singleton ds c ih =>
    by_cases hds : ds = []
    · simp [hds, numeral?_singleton]
    · have hall : (∀ e ∈ ds, (digitValue? b e).isSome) ↔ (numeral? b ds).isSome := by
        rw [ih]
        exact ⟨fun h => ⟨hds, h⟩, And.right⟩
      rw [List.forall_mem_append, hall, List.forall_mem_singleton, numeral?_concat hds]
      cases numeral? b ds <;> simp

theorem numeral?_toDigits (hb : 1 < b) (hb' : b ≤ 16) (n : Nat) :
    numeral? b (Nat.toDigits b n) = some n := by
  induction n using Nat.strongRecOn with
  | ind n ih =>
    rw [Nat.toDigits_eq_if hb]
    split
    · next hn => simp [numeral?, digitValue?_digitChar hn hb']
    · next hn =>
      have hmod : n % b < b := Nat.mod_lt n (by omega)
      rw [numeral?_concat Nat.toDigits_ne_nil, ih (n / b) (Nat.div_lt_self (by omega) hb),
        digitValue?_digitChar hmod hb']
      simp [Nat.div_add_mod']

theorem numeral?_zeros (hb : 0 < b) (k : Nat) {ds : List Char} (hds : ds ≠ []) :
    numeral? b (List.replicate k '0' ++ ds) = numeral? b ds := by
  induction k with
  | zero => rfl
  | succ k ih =>
    have hzero : digitValue? b '0' = some 0 := by simp [digitValue?, Option.filter, hb]
    rw [← ih, List.replicate_succ, List.cons_append]
    simp [numeral?, hds, hzero]

theorem digitChar_of_mem_toDigits (hb : 1 < b) {c : Char} (hc : c ∈ Nat.toDigits b n) :
    ∃ d < b, c = d.digitChar := by
  induction n using Nat.strongRecOn with
  | ind n ih =>
    rw [Nat.toDigits_eq_if hb] at hc
    split at hc
    · next hn => exact ⟨n, hn, List.mem_singleton.mp hc⟩
    · next hn =>
      rcases List.mem_append.mp hc with hc | hc
      · exact ih (n / b) (Nat.div_lt_self (by omega) hb) hc
      · exact ⟨n % b, Nat.mod_lt n (by omega), List.mem_singleton.mp hc⟩

end MipsToolchain.Text
