import MipsToolchain.Proofs.Object.Building
import MipsToolchain.Proofs.ObjectFile.Lengths
import MipsToolchain.Proofs.ObjectFile.Reading
import MipsToolchain.Proofs.ObjectFile.Writing

namespace MipsToolchain

open ObjectFile ObjectFile.Build

namespace Module

def fileHeader (m : Module) : Header where
  magic := ObjectFile.magic
  version := formatVersion
  flags := if m.order = .little then littleFlag else 0
  entry := 0
  sizes := sectionSizes m
  relocations := m.tables.relocations.length.toUInt32
  references := m.tables.references.length.toUInt32
  definitions := m.tables.definitions.length.toUInt32
  strings := m.tables.strings.encode.length.toUInt32

def fileSize (m : Module) (s : StandardSection) : UInt32 := (m.offset s.name).toUInt32

def fileSection (m : Module) (s : StandardSection) : StandardSection × Nat × List UInt8 :=
  (s, (m.fileSize s).toNat, if hasContents s then m.contentsOf s.name else [])

def fileParts (m : Module) : Parts where
  sections := (StandardSection.all.filter fun s => m.fileSize s ≠ 0).map m.fileSection
  relocations := m.tables.relocations
  references := m.tables.references
  definitions := m.tables.definitions
  strings := m.tables.strings.encode

/-- Whether all that is written of a module can be counted in 32 bits. -/
structure Fits (m : Module) : Prop where
  contents : ∀ s, hasContents s → m.offset s.name < 2 ^ 32
  relocations : m.tables.relocations.length < 2 ^ 32
  references : m.tables.references.length < 2 ^ 32
  definitions : m.tables.definitions.length < 2 ^ 32
  strings : m.tables.strings.encode.length < 2 ^ 32

end Module

namespace ObjectFile

variable {m : Module}

theorem toNat_toUInt32 {n : Nat} (h : n < 2 ^ 32) : n.toUInt32.toNat = n := by
  simp only [Nat.toUInt32_eq, UInt32.toNat_ofNat']
  exact Nat.mod_eq_of_lt h

theorem assemble_eq (m : Module) : assemble m m.tables 0 0 =
    m.fileHeader.encode ++ (contents m ++ m.tables.encode) := by
  rw [← List.append_assoc]
  simp only [assemble, Module.fileHeader, UInt32.zero_or]

section Sections

def storedBytes (m : Module) (s : StandardSection) : List UInt8 :=
  if hasContents s then m.contentsOf s.name else []

theorem length_storedBytes {s : StandardSection}
    (h : hasContents s → m.offset s.name < 2 ^ 32) :
    (storedBytes m s).length = if hasContents s then (m.fileSize s).toNat else 0 := by
  unfold storedBytes
  split
  · next hc => rw [Module.length_contentsOf, Module.fileSize, toNat_toUInt32 (h hc)]
  · rfl

theorem readSections_contents {ss : List StandardSection}
    (hfits : ∀ s ∈ ss, hasContents s → m.offset s.name < 2 ^ 32) (rest : List UInt8) :
    readSections (ss.map fun s => (s, m.fileSize s)) (ss.flatMap (storedBytes m) ++ rest) =
        .ok ((ss.filter fun s => m.fileSize s ≠ 0).map m.fileSection, rest) := by
  induction ss with
  | nil => rfl
  | cons s ss ih =>
    obtain ⟨hs, hss⟩ := List.forall_mem_cons.mp hfits
    have hlen := length_storedBytes hs
    rw [List.map_cons, readSections, List.flatMap_cons, List.append_assoc]
    by_cases hzero : m.fileSize s = 0
    · have hempty : storedBytes m s = [] := by
        rw [hzero, UInt32.toNat_zero, ite_self] at hlen
        exact List.length_eq_zero_iff.mp hlen
      rw [if_pos hzero, hempty, List.nil_append, ih hss, List.filter_cons_of_neg (by simp [hzero])]
    · rw [if_neg hzero, split_append hlen, List.filter_cons_of_pos (by simp [hzero]), List.map_cons]
      change (readSections _ (ss.flatMap (storedBytes m) ++ rest) >>= fun x => _) = _
      rw [ih hss]
      rfl

theorem contents_eq (m : Module) : contents m = StandardSection.all.flatMap (storedBytes m) := by
  have hcontents : contents m =
      (StandardSection.all.filter hasContents).flatMap fun s => m.contentsOf s.name := by
    refine congrArg (List.flatMap · _) (funext fun s => ?_)
    unfold Module.contentsOf
    cases m.section? s.name <;> rfl
  rw [hcontents]
  rfl

end Sections

section Parts

theorem sizes_fileHeader (m : Module) : StandardSection.all.zip m.fileHeader.sizes =
    StandardSection.all.map fun s => (s, m.fileSize s) := rfl

theorem readParts_encode {h : Header} {t : Tables} (hsizes : h.sizes = sectionSizes m)
    (hcontents : ∀ s, hasContents s → m.offset s.name < 2 ^ 32)
    (hrelocations : h.relocations.toNat = t.relocations.length)
    (hreferences : h.references.toNat = t.references.length)
    (hdefinitions : h.definitions.toNat = t.definitions.length)
    (hstrings : h.strings.toNat = t.strings.encode.length) :
    readParts h (contents m ++ t.encode) =
      .ok ⟨(StandardSection.all.filter fun s => m.fileSize s ≠ 0).map m.fileSection,
        t.relocations, t.references, t.definitions, t.strings.encode⟩ := by
  have hsections : StandardSection.all.zip h.sizes =
      StandardSection.all.map fun s => (s, m.fileSize s) := by
    rw [hsizes]
    rfl
  have hstring := split_append hstrings.symm []
  rw [List.append_nil] at hstring
  unfold readParts
  rw [hsections, contents_eq]
  refine except_bind_eq_ok.mpr ⟨_, readSections_contents (fun s _ => hcontents s) _, ?_⟩
  dsimp only
  rw [Tables.encode, List.append_assoc, List.append_assoc, hrelocations]
  refine except_bind_eq_ok.mpr ⟨_, readTable_encode RelocationEntry.length_encode
    RelocationEntry.decode_encode t.relocations _, ?_⟩
  dsimp only
  rw [hreferences]
  refine except_bind_eq_ok.mpr ⟨_, readTable_encode SymbolEntry.length_encode
    SymbolEntry.decode_encode t.references _, ?_⟩
  dsimp only
  rw [hdefinitions]
  refine except_bind_eq_ok.mpr ⟨_, readTable_encode SymbolEntry.length_encode
    SymbolEntry.decode_encode t.definitions _, ?_⟩
  exact except_bind_eq_ok.mpr ⟨_, hstring, rfl⟩

theorem readParts_of_fits (h : m.Fits) :
    readParts m.fileHeader (contents m ++ m.tables.encode) = .ok m.fileParts :=
  readParts_encode rfl h.contents (toNat_toUInt32 h.relocations) (toNat_toUInt32 h.references)
    (toNat_toUInt32 h.definitions) (toNat_toUInt32 h.strings)

-- A count that does not fit becomes smaller, and then something of the file is left over.
theorem fits_of_readParts {p : Parts}
    (h : readParts m.fileHeader (contents m ++ m.tables.encode) = .ok p) : m.Fits := by
  have hlen := length_of_readParts h
  have hcontents : (contents m).length = m.offset (StandardSection.name .text) +
      m.offset (StandardSection.name .rodata) + m.offset (StandardSection.name .data) +
      m.offset (StandardSection.name .sdata) := by
    rw [contents_eq]
    simp [StandardSection.all, storedBytes, hasContents, Module.length_contentsOf, Nat.add_assoc]
  have htables : m.tables.encode.length = m.tables.relocations.length * 8 +
      m.tables.references.length * 16 + m.tables.definitions.length * 16 +
      m.tables.strings.encode.length := by
    simp [Tables.encode, List.length_flatMap, RelocationEntry.size, SymbolEntry.size,
      List.map_const', Nat.add_assoc]
  rw [List.length_append, hcontents, htables, Header.bodySize, sizes_fileHeader] at hlen
  simp only [StandardSection.all, List.map_cons, List.map_nil,
    storedSize, hasContents, if_true, Bool.false_eq_true, if_false, List.sum_cons, List.sum_nil,
    Module.fileSize, Module.fileHeader, RelocationEntry.size, SymbolEntry.size, Nat.toUInt32_eq,
    UInt32.toNat_ofNat'] at hlen
  refine ⟨fun s hs => ?_, ?_, ?_, ?_, ?_⟩
  · cases s with
    | sbss | bss => cases hs
    | _ => omega
  · omega
  · omega
  · omega
  · omega

end Parts

theorem order_flags {base : UInt32} (h : base = 0 ∨ base = executableFlag) (o : ByteOrder) :
    let flags := base ||| if o = .little then littleFlag else 0
    (if flags &&& littleFlag != 0 then ByteOrder.little else .big) = o ∧
      (flags &&& executableFlag != 0) = (base != 0) := by
  rcases h with rfl | rfl <;> cases o <;> decide

theorem order_fileHeader (m : Module) :
    m.fileHeader.order = m.order ∧ m.fileHeader.isExecutable = false := by
  have horder := order_flags (.inl rfl) m.order
  rw [UInt32.zero_or] at horder
  exact horder

theorem unmarshal_assemble {n : String} {f : File} :
    unmarshal n (assemble m m.tables 0 0) = .ok (.ok f) ↔ m.Fits ∧ ∃ m',
      (addParts m.fileHeader m.fileParts).Makes { name := n, order := m.order } () m' ∧
        f = ⟨m.fileHeader, m'.finalize, m.tables.definitions⟩ := by
  have hheader : readHeader (assemble m m.tables 0 0) =
      .ok (m.fileHeader, contents m ++ m.tables.encode) := by
    rw [assemble_eq]
    exact Header.readHeader_encode rfl rfl rfl _
  rw [unmarshal_eq_ok, hheader]
  constructor
  · rintro ⟨_, _, p, m', hh, hparts, hrun, rfl⟩
    cases hh
    have hfits := fits_of_readParts hparts
    cases (readParts_of_fits hfits).symm.trans hparts
    rw [(order_fileHeader m).1] at hrun
    exact ⟨hfits, m', hrun, rfl⟩
  · rintro ⟨hfits, m', hrun, rfl⟩
    rw [← (order_fileHeader m).1] at hrun
    exact ⟨_, _, _, m', rfl, readParts_of_fits hfits, hrun, rfl⟩

end ObjectFile

end MipsToolchain
