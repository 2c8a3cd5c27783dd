import MipsToolchain.Proofs.Isa.Decoding
import MipsToolchain.Proofs.Link.Exports
import MipsToolchain.Proofs.ObjectFile.Reading
import MipsToolchain.Proofs.ObjectFile.Writing

namespace MipsToolchain

def SymbolType.isAssigned : SymbolType → Bool
  | unassigned _ => false
  | _ => true

namespace ObjectFile

open Isa

section Definitions

theorem low_shiftLeft (w : UInt32) {k : UInt32} (hk : k = 5 ∨ k = 8) : (w <<< k) &&& 0x1f = 0 := by
  obtain ⟨q, hq⟩ : 32 ∣ 2 ^ (k.toNat % 32) := by
    rcases hk with rfl | rfl <;> decide
  have hshift : (w <<< k).toNat = 32 * (w.toNat * q) % 0x100000000 := by
    rw [UInt32.toNat_shiftLeft, Nat.shiftLeft_eq, hq, Nat.mul_left_comm]
  rw [← UInt32.toNat_inj, toNat_low5, hshift]
  change _ = 0
  omega

-- The type and the binding of a symbol lie above its section and the flag of definitions.
theorem low_definitionFlags (s : Symbol) (x : UInt32) :
    (definitionFlags s ||| x) &&& 0x1f = x &&& 0x1f := by
  rw [definitionFlags, or_and_distrib, or_and_distrib, low_shiftLeft _ (.inl rfl),
    low_shiftLeft _ (.inr rfl)]
  simp

theorem and_of_low {w x mask : UInt32} (h : w &&& 0x1f = x &&& 0x1f) (hmask : 0x1f &&& mask = mask) :
    w &&& mask = x &&& mask := by
  rw [← hmask, ← UInt32.and_assoc, h, UInt32.and_assoc]

theorem low_defined (n : Name) :
    (definedFlag ||| (idOf n).toUInt32) &&& definedFlag = definedFlag ∧
      ((definedFlag ||| (idOf n).toUInt32) &&& 0xf).toUInt8 = idOf n := by
  by_cases h : n ∈ StandardSection.names
  · obtain ⟨s, rfl⟩ := exists_standard h
    rw [idOf_name]
    cases s <;> decide
  · rw [idOf, ofName?_eq_none h]
    decide

variable (strings : StringTable)

theorem low_definitionEntry {s : Symbol} {a : Address} (ha : s.address = some a) :
    (definitionEntry strings s).flags &&& 0x1f =
      (definedFlag ||| (idOf a.sectionName).toUInt32) &&& 0x1f := by
  unfold definitionEntry
  rw [ha]
  dsimp only
  rw [UInt32.or_assoc, low_definitionFlags]

theorem isDefined_definitionEntry (s : Symbol) : (definitionEntry strings s).isDefined = s.isDefined := by
  unfold SymbolEntry.isDefined Symbol.isDefined
  cases ha : s.address with
  | none =>
    have hlow := and_of_low (low_definitionFlags s 0) (show 0x1f &&& definedFlag = definedFlag by decide)
    rw [UInt32.or_zero] at hlow
    unfold definitionEntry
    rw [ha]
    simp [hlow]
  | some a =>
    rw [and_of_low (low_definitionEntry strings ha) rfl, (low_defined a.sectionName).1]
    rfl

theorem sectionId_definitionEntry {s : Symbol} {a : Address} (ha : s.address = some a) :
    (definitionEntry strings s).sectionId = idOf a.sectionName := by
  rw [SymbolEntry.sectionId, and_of_low (low_definitionEntry strings ha) rfl,
    (low_defined a.sectionName).2]

variable {s}

def assignedBindings : List Binding := [.internal, .global, .weak]

def assignedTypes : List SymbolType := [.unknown, .label, .constant]

def assignedKinds : List RelocationKind := [.absolute32, .high16, .low16, .jump26, .pcrel16]

def sectionFlags : List UInt32 :=
  0 :: (0 :: StandardSection.all.map sectionId).map (definedFlag ||| UInt8.toUInt32 ·)

theorem high_definitionFlags : ∀ b ∈ assignedBindings, ∀ t ∈ assignedTypes, ∀ x ∈ sectionFlags,
    let flags := b.code.toUInt32 <<< 5 ||| t.code.toUInt32 <<< 8 ||| x
    (flags &&& sectionStartFlag != 0) = false ∧ (flags >>> 8 &&& 0xf).toUInt8 = t.code ∧
      (flags >>> 5 &&& 3).toUInt8 = b.code := by
  -- The test runs over the list, since one over all words would not end.
  have h : assignedBindings.all fun b => assignedTypes.all fun t => sectionFlags.all fun x =>
      let flags := b.code.toUInt32 <<< 5 ||| t.code.toUInt32 <<< 8 ||| x
      (flags &&& sectionStartFlag != 0) = false ∧ (flags >>> 8 &&& 0xf).toUInt8 = t.code ∧
        (flags >>> 5 &&& 3).toUInt8 = b.code := by
    decide
  simp only [List.all_eq_true, decide_eq_true_eq] at h
  exact h

theorem flags_definitionEntry (s : Symbol) : ∃ x ∈ sectionFlags,
    (definitionEntry strings s).flags = definitionFlags s ||| x := by
  unfold definitionEntry
  cases s.address with
  | none => exact ⟨0, List.mem_cons_self, (UInt32.or_zero).symm⟩
  | some a =>
    refine ⟨definedFlag ||| (idOf a.sectionName).toUInt32, ?_, UInt32.or_assoc ..⟩
    refine List.mem_cons_of_mem _ (List.mem_map_of_mem ?_)
    by_cases h : a.sectionName ∈ StandardSection.names
    · obtain ⟨t, ht⟩ := exists_standard h
      rw [← ht, idOf_name]
      exact List.mem_cons_of_mem _ (List.mem_map_of_mem (StandardSection.mem_all t))
    · rw [idOf, ofName?_eq_none h]
      exact List.mem_cons_self

theorem proper_definitionEntry {s : Symbol} (ht : s.type.isAssigned) (hb : s.binding.isAssigned) :
    (definitionEntry strings s).Proper ∧ SymbolType.ofCode (definitionEntry strings s).kind = s.type ∧
      Binding.ofCode (definitionEntry strings s).binding = s.binding := by
  have htype : s.type ∈ assignedTypes ∧ SymbolType.ofCode s.type.code = s.type ∧
      s.type.code ≤ SymbolType.constant.code := by
    revert ht
    cases s.type <;> simp [assignedTypes, SymbolType.isAssigned] <;> decide
  have hbinding : s.binding ∈ assignedBindings ∧ Binding.ofCode s.binding.code = s.binding ∧
      s.binding.code ≤ Binding.weak.code := by
    revert hb
    cases s.binding <;> simp [assignedBindings, Binding.isAssigned] <;> decide
  obtain ⟨x, hx, hflags⟩ := flags_definitionEntry strings s
  obtain ⟨hstart, hkind, hbound⟩ := high_definitionFlags _ hbinding.1 _ htype.1 x hx
  unfold SymbolEntry.Proper SymbolEntry.isSectionStart SymbolEntry.kind SymbolEntry.binding
  rw [hflags, definitionFlags, hstart, hkind, hbound]
  exact ⟨⟨rfl, htype.2.2, hbinding.2.2⟩, htype.2.1, hbinding.2.1⟩

end Definitions

section References

theorem mem_assignedKinds {k : RelocationKind} (h : k.isAssigned) : k ∈ assignedKinds := by
  revert h
  cases k <;> simp [assignedKinds, RelocationKind.isAssigned]

theorem fields_relocationEntry : ∀ k ∈ assignedKinds, ∀ s ∈ StandardSection.all,
    (k.code ||| sectionId s <<< 4) &&& 0xf = k.code ∧
      (k.code ||| sectionId s <<< 4) >>> 4 = sectionId s := by
  decide

theorem fields_referenceEntry : ∀ k ∈ assignedKinds, ∀ s ∈ StandardSection.all,
    let flags := (sectionId s).toUInt32 ||| k.code.toUInt32 <<< 8
    (flags &&& 0xf).toUInt8 = sectionId s ∧ (flags >>> 8 &&& 0xf).toUInt8 = k.code := by
  decide

end References

end ObjectFile

end MipsToolchain
