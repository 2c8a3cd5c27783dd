import MipsToolchain.Proofs.Object.Slots
import MipsToolchain.Proofs.ObjectFile.Packing
import MipsToolchain.Proofs.ObjectFile.Parts

namespace MipsToolchain

open ObjectFile ObjectFile.Build

/-- What is left of an address in an object file: a signed number of 32 bits, or an offset without
sign. -/
def Address.stored (a : Address) : Address :=
  if a.isRelocatable then .relative a.sectionName (Int64.ofNat (Isa.lowWord a.value).toNat)
  else .absolute (Int64.ofInt (Isa.lowWord a.value).toInt32.toInt)

def Symbol.stored (s : Symbol) : Symbol :=
  ⟨s.name, s.type, s.binding, s.address.map Address.stored, false, .none⟩

def Reference.stored (r : Reference) : Reference := ⟨r.location.stored, r.symbol, r.kind, 0⟩

theorem toInt_signedWord (w : UInt32) :
    (Int64.ofInt w.toInt32.toInt).toInt = (w.toNat : Int).bmod 0x100000000 := by
  have hsigned : w.toInt32.toInt = (w.toNat : Int).bmod 0x100000000 := by
    rw [← Int32.toInt_toBitVec, BitVec.toInt_eq_toNat_bmod]
    rfl
  have hle := Int32.le_toInt w.toInt32
  have hge := Int32.toInt_lt w.toInt32
  rw [← hsigned]
  exact Int64.toInt_ofInt_of_le (by omega) (by omega)

theorem Address.stored_eq_iff {a : Address} :
    a.stored = a ↔ if a.isRelocatable then 0 ≤ a.value.toInt ∧ a.value.toInt < 2 ^ 32
      else -2 ^ 31 ≤ a.value.toInt ∧ a.value.toInt < 2 ^ 31 := by
  have hlow := Isa.toNat_lowWord a.value
  have hlt := (Isa.lowWord a.value).toNat_lt
  unfold stored
  by_cases ha : a.isRelocatable
  · rw [if_pos ha, if_pos ha]
    have hvalue : (Int64.ofNat (Isa.lowWord a.value).toNat).toInt = (Isa.lowWord a.value).toNat :=
      Int64.toInt_ofNat_of_lt (by omega)
    have hiff : relative a.sectionName (Int64.ofNat (Isa.lowWord a.value).toNat) = a ↔
        Int64.ofNat (Isa.lowWord a.value).toNat = a.value := by
      obtain ⟨v, n⟩ := a
      simp [relative]
    rw [hiff, ← Int64.toInt_inj, hvalue, hlow]
    omega
  · rw [if_neg ha, if_neg ha]
    have hempty := sectionName_eq_empty ha
    have hiff : absolute (Int64.ofInt (Isa.lowWord a.value).toInt32.toInt) = a ↔
        Int64.ofInt (Isa.lowWord a.value).toInt32.toInt = a.value := by
      obtain ⟨v, n⟩ := a
      simp only at hempty
      simp [absolute, hempty]
    rw [hiff, ← Int64.toInt_inj, toInt_signedWord, hlow, Int.bmod_def]
    split <;> omega

@[simp]
theorem Address.sectionName_stored (a : Address) : a.stored.sectionName = a.sectionName := by
  unfold stored
  split
  · rfl
  · next ha => exact (sectionName_eq_empty ha).symm

@[simp]
theorem Address.lowWord_stored (a : Address) : Isa.lowWord a.stored.value = Isa.lowWord a.value := by
  unfold stored
  split
  · exact Isa.lowWord_field _
  · have hlow := Isa.toNat_lowWord (absolute (Int64.ofInt (Isa.lowWord a.value).toInt32.toInt)).value
    have hlt := (Isa.lowWord a.value).toNat_lt
    rw [absolute, toInt_signedWord, Int.bmod_def] at hlow
    rw [absolute, ← UInt32.toNat_inj]
    split at hlow <;> omega

namespace ObjectFile

variable {m : Module}

section Sections

def storedContents (m : Module) (s : StandardSection) : ByteArray :=
  if hasContents s then (m.contentsOf s.name).toByteArray else zeroBytes (m.fileSize s).toNat

def storedSection (m : Module) (s : StandardSection) : Section :=
  ⟨s.name, s.flags, 0, 2, storedContents m s⟩

theorem name_injective {s t : StandardSection} (h : s.name = t.name) : s = t := by
  have hs := ofName?_name s
  rw [h, ofName?_name] at hs
  exact (Option.some.inj hs).symm

theorem makes_addSections {ss : List StandardSection} (hn : ss.Nodup) {M : Module}
    (hM : M.finalized = false) (hs : ∀ s ∈ ss, M.section? s.name = none) :
    ((ss.map m.fileSection).forM fun p => addSection p.1 p.2.1 p.2.2).Makes M ()
      { M with sections := M.sections ++ ss.map (storedSection m) } := by
  induction ss generalizing M with
  | nil => exact makes_forM_nil.mpr (by simp)
  | cons s ss ih =>
    obtain ⟨hfresh, hnodup⟩ := List.nodup_cons.mp hn
    obtain ⟨hs, hss⟩ := List.forall_mem_cons.mp hs
    have hsize : ((m.fileSize s).toNat : Int) ≤ Module.addressSpace := by
      have hlt := (m.fileSize s).toNat_lt
      unfold Module.addressSpace
      omega
    have hfilling : filling s (m.fileSize s).toNat
        (if hasContents s then m.contentsOf s.name else []) = storedContents m s := by
      unfold filling storedContents
      split <;> rfl
    have hfirst := makes_addSection hM hs hsize
      (if hasContents s then m.contentsOf s.name else [])
    rw [hfilling] at hfirst
    have hrest := ih hnodup (M := M.addNew (storedSection m s)) hM fun t ht => by
      rw [Module.section?_addNew hs, if_neg, hss t ht]
      intro heq
      exact hfresh (name_injective heq ▸ ht)
    rw [List.map_cons, List.map_cons, List.append_cons]
    exact makes_forM_cons.mpr ⟨M.addNew (storedSection m s), hfirst, hrest⟩

end Sections

section Symbols

variable (strings : StringTable) {h : Header}

-- A type or a binding that does not exist is cut to the bits that it has in an entry.
def readBack (s : Symbol) : Symbol :=
  ⟨s.name, .ofCode (definitionEntry strings s).kind, .ofCode (definitionEntry strings s).binding,
    s.address.map Address.stored, false, .none⟩

theorem nameOfId_idOf {n : Name} (hn : n ∈ StandardSection.names) : nameOfId (idOf n) = .ok n := by
  obtain ⟨s, rfl⟩ := exists_standard hn
  rw [idOf_name, nameOfId, sectionOfId?_sectionId]

theorem entryAddress_definitionEntry (hx : h.isExecutable = false) {s : Symbol}
    (hs : Representable s) :
    entryAddress h (definitionEntry strings s) = .ok (s.address.map Address.stored) := by
  unfold entryAddress
  rw [isDefined_definitionEntry]
  cases ha : s.address with
  | none => simp [Symbol.isDefined, ha]
  | some a =>
    have hvalue : (definitionEntry strings s).value = Isa.lowWord a.value := by
      simp [definitionEntry, ha]
    rw [if_neg (by simp [Symbol.isDefined, ha]), sectionId_definitionEntry strings ha, hvalue,
      Option.map_some, Address.stored]
    by_cases hrel : a.isRelocatable
    · have hn := hs a ha hrel
      obtain ⟨t, ht⟩ := exists_standard hn
      have hid : idOf a.sectionName ≠ 0 := by
        rw [← ht, idOf_name]
        cases t <;> decide
      rw [if_neg hid, if_pos hrel, nameOfId_idOf hn]
      rfl
    · rw [sectionName_eq_empty hrel, idOf_empty, if_pos rfl, if_neg hrel, absoluteValue, hx]
      rfl

theorem readSymbol_definitionEntry (hx : h.isExecutable = false) {s : Symbol}
    (hs : Representable s) (hn : s.name ∈ strings.names) (hz : s.name.ZeroFree)
    (hlt : strings.encode.length < 2 ^ 32) :
    readSymbol h strings.encode (definitionEntry strings s) = .ok (readBack strings s) := by
  have hindex : (definitionEntry strings s).nameIndex = strings.index s.name := by
    unfold definitionEntry
    cases s.address <;> rfl
  refine readSymbol_eq_ok.mpr ⟨s.name, _, ?_, entryAddress_definitionEntry strings hx hs, rfl⟩
  rw [hindex]
  exact StringTable.stringAt_index hn hz hlt

theorem readBack_of_assigned {s : Symbol} (ht : s.type.isAssigned) (hb : s.binding.isAssigned) :
    readBack strings s = s.stored := by
  obtain ⟨-, htype, hbinding⟩ := proper_definitionEntry strings ht hb
  rw [readBack, Symbol.stored, htype, hbinding]

end Symbols

section References

variable {h : Header} {r : Reference}

theorem makes_addReference {M M' : Module} (hM : M.finalized = false) (hx : h.isExecutable = false)
    (hr : M.isSectionName r.symbol ∨ r.symbol ∈ M.symbolNames) :
    (addReference h r).Makes M () M' ↔ r.kind.isAssigned ∧
      (∃ w, (M.readWord r.location).run = .ok (.ok w)) ∧
      M' = { M with references := M.references ++ [r] } := by
  have htrack := Module.perform_track_of_known hM hr
  unfold addReference
  simp only [makes_unless, hx, Bool.not_eq_true', Bool.false_eq_true, not_false_eq_true, true_and,
    Bool.not_eq_false, makes_bind (x := get), makes_get]
  refine and_congr_right fun hk => ?_
  constructor
  · rintro ⟨_, _, ⟨rfl, rfl⟩, hrun⟩
    split at hrun
    · cases hrun
    · exact absurd hrun makes_throw
    · next w hw =>
      rw [makes_lift, htrack] at hrun
      cases hrun
      exact ⟨⟨w, hw⟩, rfl⟩
  · rintro ⟨⟨w, hw⟩, rfl⟩
    refine ⟨M, M, ⟨rfl, rfl⟩, ?_⟩
    change M.readWord r.location = .ok (.ok w) at hw
    rw [hw]
    exact makes_lift.mpr htrack

theorem stored_location (hl : r.location.sectionName ∈ StandardSection.names) :
    r.location.stored =
      .relative r.location.sectionName (Int64.ofNat (Isa.lowWord r.location.value).toNat) := by
  obtain ⟨s, hs⟩ := exists_standard hl
  have hrel : r.location.isRelocatable := by
    rw [Address.isRelocatable, ← hs]
    cases s <;> rfl
  rw [Address.stored, if_pos hrel]

theorem addRelocation_relocationEntry (hk : r.kind.isAssigned)
    (hl : r.location.sectionName ∈ StandardSection.names) (ht : r.symbol ∈ StandardSection.names) :
    addRelocation h (relocationEntry r) = addReference h r.stored := by
  obtain ⟨s, hs⟩ := exists_standard ht
  have hfields := fields_relocationEntry _ (mem_assignedKinds hk) s (StandardSection.mem_all s)
  rw [← idOf_name, hs] at hfields
  have hkind : RelocationKind.ofCode (relocationEntry r).kind = r.kind := by
    rw [RelocationEntry.kind, relocationEntry, hfields.1, RelocationKind.ofCode_code hk]
  have htarget : nameOfId (relocationEntry r).target = .ok r.symbol := by
    rw [RelocationEntry.target, relocationEntry, hfields.2, nameOfId_idOf ht]
  have hsection : nameOfId (relocationEntry r).sectionId = .ok r.location.sectionName :=
    nameOfId_idOf hl
  rw [addRelocation, hsection, htarget, hkind, Reference.stored, stored_location hl]
  rfl

theorem addNamedReference_referenceEntry {strings : StringTable} (hk : r.kind.isAssigned)
    (hl : r.location.sectionName ∈ StandardSection.names) (hn : r.symbol ∈ strings.names)
    (hz : r.symbol.ZeroFree) (hlt : strings.encode.length < 2 ^ 32) :
    addNamedReference h strings.encode (referenceEntry strings r) = addReference h r.stored := by
  obtain ⟨s, hs⟩ := exists_standard hl
  have hfields := fields_referenceEntry _ (mem_assignedKinds hk) s (StandardSection.mem_all s)
  rw [← idOf_name, hs] at hfields
  have hkind : RelocationKind.ofCode (referenceEntry strings r).kind = r.kind := by
    rw [SymbolEntry.kind, referenceEntry, hfields.2, RelocationKind.ofCode_code hk]
  have hsection : nameOfId (referenceEntry strings r).sectionId = .ok r.location.sectionName := by
    rw [SymbolEntry.sectionId, referenceEntry, hfields.1, nameOfId_idOf hl]
  have hname : stringAt strings.encode (referenceEntry strings r).nameIndex = .ok r.symbol :=
    StringTable.stringAt_index hn hz hlt
  rw [addNamedReference, hname, hsection, hkind, Reference.stored, stored_location hl]
  rfl

theorem makes_addReferences {rs : List Reference} {M : Module} (hM : M.finalized = false)
    (hx : h.isExecutable = false)
    (hr : ∀ r ∈ rs, M.isSectionName r.symbol ∨ r.symbol ∈ M.symbolNames)
    (hk : ∀ r ∈ rs, r.kind.isAssigned) (hw : ∀ r ∈ rs, ∃ w, (M.readWord r.location).run = .ok (.ok w)) :
    (rs.forM (addReference h)).Makes M () { M with references := M.references ++ rs } := by
  induction rs generalizing M with
  | nil => exact makes_forM_nil.mpr (by simp)
  | cons r rs ih =>
    obtain ⟨hr, hrs⟩ := List.forall_mem_cons.mp hr
    obtain ⟨hk, hks⟩ := List.forall_mem_cons.mp hk
    obtain ⟨hw, hws⟩ := List.forall_mem_cons.mp hw
    have hrest := ih (M := { M with references := M.references ++ [r] }) hM hrs hks hws
    rw [List.append_cons]
    exact makes_forM_cons.mpr ⟨_, (makes_addReference hM hx hr).mpr ⟨hk, hw, rfl⟩, hrest⟩

end References

end ObjectFile

end MipsToolchain
