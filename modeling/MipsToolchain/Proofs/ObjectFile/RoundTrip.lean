import MipsToolchain.Proofs.Object.Operations
import MipsToolchain.Proofs.ObjectFile.Stored

namespace MipsToolchain

open ObjectFile ObjectFile.Build

namespace Module

def InBounds (m : Module) (loc : Address) : Prop :=
  ∃ s, m.section? loc.sectionName = some s ∧ 0 ≤ loc.value.toInt ∧ loc.value.toInt + 4 ≤ s.length

/-- Whether an object file can count everything in a module. -/
structure FitsFile (m : Module) : Prop where
  sections : ∀ s ∈ m.sections, s.length < 2 ^ 32
  sectionReferences : m.sectionReferences.length < 2 ^ 32
  namedReferences : m.namedReferences.length < 2 ^ 32
  symbols : m.symbols.length < 2 ^ 32
  strings : m.strings.encode.length < 2 ^ 32

instance (m : Module) : Decidable m.FitsFile :=
  decidable_of_iff ((∀ s ∈ m.sections, s.length < 2 ^ 32) ∧ m.sectionReferences.length < 2 ^ 32 ∧
      m.namedReferences.length < 2 ^ 32 ∧ m.symbols.length < 2 ^ 32 ∧
      m.strings.encode.length < 2 ^ 32)
    ⟨fun h => ⟨h.1, h.2.1, h.2.2.1, h.2.2.2.1, h.2.2.2.2⟩, fun h =>
      ⟨h.sections, h.sectionReferences, h.namedReferences, h.symbols, h.strings⟩⟩

def storedSections (m : Module) : List StandardSection :=
  StandardSection.all.filter fun s => m.fileSize s ≠ 0

/-- What is left of a module in its object file. -/
def stored (m : Module) (n : String) : Module where
  name := n
  order := m.order
  sections := m.storedSections.map (storedSection m)
  symbols := m.symbols.map Symbol.stored
  references := (m.sectionReferences ++ m.namedReferences).map Reference.stored
  finalized := true

theorem offset_lt {m : Module} {k : Nat} (hk : 0 < k) (h : ∀ s ∈ m.sections, s.length < k)
    (n : Name) : m.offset n < k := by
  unfold offset
  cases hs : m.section? n with
  | none => exact hk
  | some s => exact h s (List.mem_of_find?_eq_some hs)

theorem FitsFile.offset_lt {m : Module} (h : m.FitsFile) (n : Name) : m.offset n < 2 ^ 32 :=
  m.offset_lt (by decide) h.sections n

theorem FitsFile.fits {m : Module} (h : m.FitsFile) : m.Fits where
  contents s _ := h.offset_lt s.name
  relocations := by simpa [tables] using h.sectionReferences
  references := by simpa [tables] using h.namedReferences
  definitions := by simpa [tables] using h.symbols
  strings := h.strings

end Module

namespace ObjectFile

variable {m : Module}

section Tables

theorem mem_strings_of_symbol {s : Symbol} (h : s ∈ m.symbols) : s.name ∈ m.strings.names :=
  StringTable.mem_addAll (List.mem_append_left _ (List.mem_map_of_mem h))

theorem mem_strings_of_reference {r : Reference} (h : r ∈ m.namedReferences) :
    r.symbol ∈ m.strings.names :=
  StringTable.mem_addAll (List.mem_append_right _ (List.mem_map_of_mem h))

theorem symbol_of_namedReference (hm : m.WellFormed) {r : Reference} (h : r ∈ m.namedReferences) :
    r.symbol ∈ m.symbolNames := by
  obtain ⟨hr, hname⟩ := List.mem_filter.mp h
  exact (hm.known r hr).resolve_left (by simpa using hname)

theorem zeroFree_of_namedReference (hm : m.WellFormed) (hz : ∀ s ∈ m.symbols, s.name.ZeroFree)
    {r : Reference} (h : r ∈ m.namedReferences) : r.symbol.ZeroFree := by
  obtain ⟨s, hs, hname⟩ := List.mem_map.mp (symbol_of_namedReference hm h)
  exact hname ▸ hz s hs

theorem isSectionName_of_standard {n : Name} (h : n ∈ StandardSection.names) :
    m.isSectionName n := by
  simp [Module.isSectionName, h]

theorem mem_references_of_split {r : Reference} (h : r ∈ m.sectionReferences ++ m.namedReferences) :
    r ∈ m.references := by
  rcases List.mem_append.mp h with h | h
  · exact (List.mem_filter.mp h).1
  · exact (List.mem_filter.mp h).1

theorem standard_of_sectionReference (hs : m.UsesStandardSections) {r : Reference}
    (h : r ∈ m.sectionReferences) : r.symbol ∈ StandardSection.names := by
  obtain ⟨-, hname⟩ := List.mem_filter.mp h
  exact of_decide_eq_true ((Module.isSectionName_eq_decide hs.sections _).symm.trans hname)

end Tables

section Definitions

variable {n : String} {M : Module}

-- The module of a file before its references are read.
def definedModule (m : Module) (n : String) : Module where
  name := n
  order := m.order
  sections := m.storedSections.map (storedSection m)
  symbols := m.symbols.map (readBack m.strings)

theorem makes_addParts (hm : m.WellFormed) (hs : m.UsesStandardSections) (hfits : m.Fits)
    (hz : ∀ s ∈ m.symbols, s.name.ZeroFree) :
    (addParts m.fileHeader m.fileParts).Makes { name := n, order := m.order } () M ↔
      (∀ s ∈ m.symbols, (definitionEntry m.strings s).Proper) ∧
      (do
        m.fileParts.relocations.forM (addRelocation m.fileHeader)
        m.fileParts.references.forM (addNamedReference m.fileHeader m.fileParts.strings)
        : Build Unit).Makes (definedModule m n) () M := by
  have hstandard : m.storedSections.Nodup := .filter _ (by decide)
  have hsections := makes_addSections (m := m) hstandard
    (M := { name := n, order := m.order }) rfl fun _ _ => rfl
  have hread : ∀ s ∈ m.symbols, readSymbol m.fileHeader m.strings.encode
      (definitionEntry m.strings s) = .ok (readBack m.strings s) ∧
        (readBack m.strings s).name = s.name := fun s hmem =>
    ⟨readSymbol_definitionEntry m.strings (order_fileHeader m).2 (hs.symbols s hmem)
      (mem_strings_of_symbol hmem) (hz s hmem) hfits.strings, rfl⟩
  have hx : ∀ s ∈ m.symbols, m.fileHeader.isExecutable →
      (definitionEntry m.strings s).isSectionStart = false := fun s _ hexec => by
    rw [(order_fileHeader m).2] at hexec
    cases hexec
  constructor
  · intro hrun
    obtain ⟨_, M₁, hrun₁, hrun⟩ := makes_bind.mp hrun
    cases hrun₁.unique hsections
    obtain ⟨_, M₂, hrun₂, hrun⟩ := makes_bind.mp hrun
    obtain ⟨hproper, -, -, rfl⟩ := (makes_addDefinitions hread rfl hx).mp hrun₂
    exact ⟨hproper, hrun⟩
  · rintro ⟨hproper, hrun⟩
    refine makes_bind.mpr ⟨(), _, hsections, makes_bind.mpr ⟨(), definedModule m n, ?_, hrun⟩⟩
    exact (makes_addDefinitions hread rfl hx).mpr
      ⟨hproper, hm.distinct, fun _ _ => rfl, rfl⟩

end Definitions

section References

variable {n : String}

theorem section?_stored {sections : List StandardSection} {s : StandardSection} (h : s ∈ sections) :
    (sections.map (storedSection m)).find? (·.name = s.name) = some (storedSection m s) := by
  induction sections with
  | nil => cases h
  | cons t ts ih =>
    rw [List.map_cons, List.find?_cons]
    by_cases heq : t = s
    · subst heq
      simp [storedSection]
    · have hne : (storedSection m t).name ≠ s.name := fun hn => heq (name_injective hn)
      rw [decide_eq_false hne]
      exact ih ((List.mem_cons.mp h).resolve_left (Ne.symm heq))

theorem length_storedSection {s : StandardSection} (h : m.offset s.name < 2 ^ 32) :
    (storedSection m s).length = m.offset s.name := by
  unfold Section.length storedSection storedContents
  split
  · rw [← Module.length_contentsOf]
    simp
  · simp [Module.fileSize, toNat_toUInt32 h]

theorem isRelocatable_of_standard {a : Address} (h : a.sectionName ∈ StandardSection.names) :
    a.isRelocatable := by
  obtain ⟨s, hs⟩ := exists_standard h
  rw [Address.isRelocatable, ← hs]
  cases s <;> rfl

variable {loc : Address} (hfit : m.FitsFile) (hb : m.InBounds loc)
  (hl : loc.sectionName ∈ StandardSection.names)

include hb in
theorem offset_of_inBounds : 0 ≤ loc.value.toInt ∧
    loc.value.toInt + 4 ≤ m.offset loc.sectionName := by
  obtain ⟨s, hs, hzero, hle⟩ := hb
  exact ⟨hzero, by simpa [Module.offset, hs] using hle⟩

include hfit hb hl in
theorem stored_of_inBounds : loc.stored = loc := by
  obtain ⟨hzero, hle⟩ := offset_of_inBounds hb
  have hlt := hfit.offset_lt loc.sectionName
  rw [Address.stored_eq_iff, if_pos (isRelocatable_of_standard hl)]
  exact ⟨hzero, by omega⟩

include hfit hb hl in
theorem exists_readWord {M : Module} (hM : M.sections = m.storedSections.map (storedSection m)) :
    ∃ w, (M.readWord loc).run = .ok (.ok w) := by
  obtain ⟨hzero, hle⟩ := offset_of_inBounds hb
  have hlt := hfit.offset_lt loc.sectionName
  obtain ⟨t, ht⟩ := exists_standard hl
  have hstored : t ∈ m.storedSections := by
    have hsize : m.fileSize t ≠ 0 := by
      intro h
      have hnat := congrArg UInt32.toNat h
      rw [Module.fileSize, ht, toNat_toUInt32 hlt] at hnat
      change m.offset loc.sectionName = 0 at hnat
      omega
    exact List.mem_filter.mpr ⟨StandardSection.mem_all t, by simpa using hsize⟩
  -- The section of the word has bytes, so that it is among those in the file.
  have hsection : M.section? loc.sectionName = some (storedSection m t) := by
    rw [Module.section?, hM, ← ht]
    exact section?_stored hstored
  have hlen : (storedSection m t).length = m.offset loc.sectionName := by
    rw [length_storedSection (by rw [ht]; exact hlt), ht]
  obtain ⟨bs, hbs⟩ := Module.wordBytes?_eq_some_of_le (s := storedSection m t) (k := loc.offset)
    (by rw [hlen, Address.offset]; omega)
  have hword := Module.wordIn?_eq_of_wordBytes? (o := M.order) hsection hbs
  rw [Address.eq_inSection hzero]
  refine ⟨_, Module.readWord_of_wordIn? hword ?_⟩
  rw [Module.offset, hsection, Option.map_some, Option.getD_some, hlen]
  omega

end References

section RoundTrip

variable {n : String}

/-- References to sections come before those to symbols, each from a table of its own. -/
theorem makes_references (hm : m.WellFormed) (hs : m.UsesStandardSections) (hfit : m.FitsFile)
    (hz : ∀ s ∈ m.symbols, s.name.ZeroFree)
    (hr : ∀ r ∈ m.references, m.InBounds r.location ∧ r.kind.isAssigned) :
    (do
      m.fileParts.relocations.forM (addRelocation m.fileHeader)
      m.fileParts.references.forM (addNamedReference m.fileHeader m.fileParts.strings)
      : Build Unit).Makes (definedModule m n) () { definedModule m n with
        references :=
          m.sectionReferences.map Reference.stored ++ m.namedReferences.map Reference.stored } := by
  have hold : ∀ r ∈ m.sectionReferences, r ∈ m.references := fun r h => (List.mem_filter.mp h).1
  have hold' : ∀ r ∈ m.namedReferences, r ∈ m.references := fun r h => (List.mem_filter.mp h).1
  have hrelocations : m.fileParts.relocations.forM (addRelocation m.fileHeader) =
      (m.sectionReferences.map Reference.stored).forM (addReference m.fileHeader) :=
    forM_map_congr fun r hmem => addRelocation_relocationEntry (hr r (hold r hmem)).2
      (hs.references r (hold r hmem)) (standard_of_sectionReference hs hmem)
  have hreferences : m.fileParts.references.forM
        (addNamedReference m.fileHeader m.fileParts.strings) =
      (m.namedReferences.map Reference.stored).forM (addReference m.fileHeader) :=
    forM_map_congr fun r hmem => addNamedReference_referenceEntry
      (hr r (hold' r hmem)).2 (hs.references r (hold' r hmem))
      (mem_strings_of_reference hmem) (zeroFree_of_namedReference hm hz hmem) hfit.fits.strings
  have hassigned : ∀ rs : List Reference, (∀ r ∈ rs, r ∈ m.references) →
      ∀ r ∈ rs.map Reference.stored, r.kind.isAssigned := by
    intro rs hrs q hq
    obtain ⟨r, hmem, rfl⟩ := List.mem_map.mp hq
    exact (hr r (hrs r hmem)).2
  have hwords : ∀ rs : List Reference, (∀ r ∈ rs, r ∈ m.references) →
      ∀ r ∈ rs.map Reference.stored,
        ∃ w, ((definedModule m n).readWord r.location).run = .ok (.ok w) := by
    intro rs hrs q hq
    obtain ⟨r, hmem, rfl⟩ := List.mem_map.mp hq
    obtain ⟨hb, -⟩ := hr r (hrs r hmem)
    have hl := hs.references r (hrs r hmem)
    rw [Reference.stored, stored_of_inBounds hfit hb hl]
    exact exists_readWord hfit hb hl rfl
  have hnames : (definedModule m n).symbolNames = m.symbolNames := by
    simp [Module.symbolNames, definedModule, readBack]
  have hx := (order_fileHeader m).2
  have hfirst := makes_addReferences (M := definedModule m n) (h := m.fileHeader) rfl hx
    (fun q hq => by
      obtain ⟨r, hmem, rfl⟩ := List.mem_map.mp hq
      exact .inl (isSectionName_of_standard (standard_of_sectionReference hs (r := r) hmem)))
    (hassigned _ hold) (hwords _ hold)
  have hsecond := makes_addReferences (h := m.fileHeader)
    (M := { definedModule m n with references := m.sectionReferences.map Reference.stored }) rfl hx
    (fun q hq => by
      obtain ⟨r, hmem, rfl⟩ := List.mem_map.mp hq
      refine .inr ?_
      change r.symbol ∈ (definedModule m n).symbolNames
      rw [hnames]
      exact symbol_of_namedReference hm hmem)
    (hassigned _ hold') (hwords _ hold')
  rw [hrelocations, hreferences]
  exact makes_bind.mpr ⟨(), _, hfirst, hsecond⟩

theorem unmarshal_stored (hm : m.WellFormed) (hs : m.UsesStandardSections) (hfit : m.FitsFile)
    (hz : ∀ s ∈ m.symbols, s.name.ZeroFree)
    (ha : ∀ s ∈ m.symbols, s.type.isAssigned ∧ s.binding.isAssigned)
    (hr : ∀ r ∈ m.references, m.InBounds r.location ∧ r.kind.isAssigned) :
    unmarshal n (assemble m m.tables 0 0) =
      .ok (.ok ⟨m.fileHeader, m.stored n, m.tables.definitions⟩) := by
  refine unmarshal_assemble.mpr ⟨hfit.fits, { m.stored n with finalized := false }, ?_, rfl⟩
  refine (makes_addParts hm hs hfit.fits hz).mpr ⟨fun s hmem =>
    (proper_definitionEntry m.strings (ha s hmem).1 (ha s hmem).2).1, ?_⟩
  have hsymbols : m.symbols.map (readBack m.strings) = m.symbols.map Symbol.stored :=
    List.map_congr_left fun s hmem => readBack_of_assigned m.strings (ha s hmem).1 (ha s hmem).2
  have hmakes := makes_references (n := n) hm hs hfit hz hr
  rw [definedModule, hsymbols, ← List.map_append] at hmakes
  rw [definedModule, hsymbols]
  exact hmakes

theorem standardFlags_name (s : StandardSection) : standardFlags s.name = s.flags := by
  rw [standardFlags, ofName?_name]

theorem nobits_flags (s : StandardSection) : s.flags.nobits = !hasContents s := by
  cases s <;> rfl

theorem fileSize_eq_zero_iff {s : StandardSection} (hlt : m.offset s.name < 2 ^ 32) :
    m.fileSize s = 0 ↔ m.offset s.name = 0 := by
  rw [← UInt32.toNat_inj, Module.fileSize, toNat_toUInt32 hlt]
  rfl

theorem map_name_storedSections (hfit : m.FitsFile) :
    m.storedSections.map StandardSection.name =
      StandardSection.names.filter fun n => m.offset n ≠ 0 := by
  rw [StandardSection.names, List.filter_map, Module.storedSections]
  congr 1
  refine List.filter_congr fun s _ => ?_
  simpa using fileSize_eq_zero_iff (hfit.offset_lt s.name)

theorem contents_storedSection {s : StandardSection} (hlt : m.offset s.name < 2 ^ 32) :
    (storedSection m s).contents =
      if s.flags.nobits then List.replicate (m.offset s.name) 0 else m.contentsOf s.name := by
  rw [nobits_flags, Section.contents, storedSection, storedContents]
  cases hasContents s
  · simp [Module.contents_zeroBytes, Module.fileSize, toNat_toUInt32 hlt]
  · simp

theorem standard_stored : ∀ t ∈ (m.stored n).sections, t.name ∈ StandardSection.names := by
  intro t ht
  obtain ⟨s, -, rfl⟩ := List.mem_map.mp ht
  exact List.mem_map_of_mem (StandardSection.mem_all s)

theorem section?_stored_of_zero {s : StandardSection} (h : m.offset s.name = 0) :
    (m.stored n).section? s.name = none := by
  refine List.find?_eq_none.mpr fun t ht heq => ?_
  obtain ⟨s', hs', rfl⟩ := List.mem_map.mp ht
  cases name_injective (of_decide_eq_true heq : s'.name = s.name)
  have hsize := (List.mem_filter.mp hs').2
  exact of_decide_eq_true hsize ((fileSize_eq_zero_iff (by omega)).mpr h)

theorem contentsOf_stored_name {s : StandardSection} (hlt : m.offset s.name < 2 ^ 32) :
    (m.stored n).contentsOf s.name =
      if s.flags.nobits then List.replicate (m.offset s.name) 0 else m.contentsOf s.name := by
  by_cases hzero : m.offset s.name = 0
  · have hempty : m.contentsOf s.name = [] :=
      List.eq_nil_of_length_eq_zero ((Module.length_contentsOf m _).trans hzero)
    rw [Module.contentsOf, section?_stored_of_zero hzero, hzero, hempty, List.replicate_zero,
      ite_self]
    rfl
  · have hstored : s ∈ m.storedSections :=
      List.mem_filter.mpr ⟨StandardSection.mem_all s,
        decide_eq_true fun h => hzero ((fileSize_eq_zero_iff hlt).mp h)⟩
    have hfind := section?_stored (m := m) hstored
    rw [Module.contentsOf_eq (m := m.stored n) hfind, contents_storedSection hlt]

/-- Nothing that matters of a module is lost in its object file. -/
theorem unmarshal_marshal (hb : m.Built) (hfin : m.finalized) (hok : m.failed = false)
    (hs : m.UsesStandardSections) (hfit : m.FitsFile) (hz : ∀ s ∈ m.symbols, s.name.ZeroFree)
    (ha : ∀ s ∈ m.symbols, s.type.isAssigned ∧ s.binding.isAssigned)
    (hr : ∀ r ∈ m.references, m.InBounds r.location ∧ r.kind.isAssigned) :
    ∃ data f, marshal m = .ok data ∧ unmarshal n data = .ok (.ok f) ∧ f.isExecutable = false ∧
      f.module.finalized ∧ f.module.failed = false ∧
      f.module.name = n ∧ f.module.order = m.order ∧
      f.module.sections.map Section.name =
        StandardSection.names.filter (fun k => m.offset k ≠ 0) ∧
      (∀ s ∈ f.module.sections, s.flags = standardFlags s.name ∧ s.alignment = 2 ∧
        s.contents =
          if s.flags.nobits then List.replicate (m.offset s.name) 0 else m.contentsOf s.name) ∧
      f.module.symbols.map (fun s => (s.name, s.type, s.binding, s.isDefined)) =
        m.symbols.map (fun s => (s.name, s.type, s.binding, s.isDefined)) ∧
      f.module.references =
        (m.references.filter (fun r => m.isSectionName r.symbol) ++
          m.references.filter (fun r => !m.isSectionName r.symbol)).map
            ({ · with addend := 0 }) := by
  refine ⟨_, _, marshal_eq_ok.mpr ⟨hfin, hok, hs, rfl⟩,
    unmarshal_stored hb.wellFormed hs hfit hz ha hr, (order_fileHeader m).2, rfl, rfl, rfl, rfl,
    ?_, ?_, ?_, ?_⟩
  · rw [← map_name_storedSections hfit]
    simp [Module.stored, storedSection]
  · intro s hmem
    obtain ⟨t, -, rfl⟩ := List.mem_map.mp hmem
    exact ⟨(standardFlags_name t).symm, rfl, contents_storedSection (hfit.offset_lt t.name)⟩
  · simp [Module.stored, Symbol.stored, Symbol.isDefined]
  · refine List.map_congr_left fun r hmem => ?_
    have hmem := mem_references_of_split hmem
    rw [Reference.stored,
      stored_of_inBounds hfit (hr r hmem).1 (hs.references r hmem)]

def callingModule : Module where
  name := "call.o"
  order := .big
  sections :=
    [⟨".text", StandardSection.text.flags, 0, 0, [0x0c, 0, 0, 0, 0, 0, 0, 5].toByteArray⟩,
      ⟨".bss", StandardSection.bss.flags, 0, 0, zeroBytes 4⟩]
  symbols :=
    [⟨"main", .label, .global, some (.relative ".text" 0), false, .none⟩,
      ⟨"far", .unknown, .internal, none, true, .none⟩]
  references :=
    [⟨.relative ".text" 0, "far", .jump26, 0⟩, ⟨.relative ".text" 4, ".bss", .absolute32, 5⟩]
  finalized := true

theorem built_callingModule : callingModule.Built := by
  have hnew := Module.Built.new "call.o" .big
  have htext := hnew.append ".text" [0x0c, 0, 0, 0, 0, 0, 0, 5].toByteArray rfl
  have hbss := htext.reserve ".bss" 4 rfl
  have hmain := hbss.define "main" .label (.relative ".text" 0) .none rfl
  have hglobal := hmain.declare "main" .global rfl
  have hjump := hglobal.track ⟨.relative ".text" 0, "far", .jump26, 0⟩ rfl
  have hword := hjump.track ⟨.relative ".text" 4, ".bss", .absolute32, 5⟩ rfl
  exact hword.finalize

theorem usesStandardSections_callingModule : callingModule.UsesStandardSections where
  sections := by decide
  symbols := by decide
  references := by decide

theorem fitsFile_callingModule : callingModule.FitsFile where
  sections := by decide
  sectionReferences := by decide
  namedReferences := by decide
  symbols := by decide
  strings := by decide

theorem inBounds_callingModule {r : Reference} (h : r ∈ callingModule.references) :
    callingModule.InBounds r.location ∧ r.kind.isAssigned := by
  simp only [callingModule, List.mem_cons, List.not_mem_nil, or_false] at h
  rcases h with rfl | rfl
  · exact ⟨⟨_, rfl, by decide, by decide⟩, rfl⟩
  · exact ⟨⟨_, rfl, by decide, by decide⟩, rfl⟩

theorem unmarshal_marshal_callingModule : ∃ data f, marshal callingModule = .ok data ∧
    unmarshal "far.o" data = .ok (.ok f) ∧ f.module.name = "far.o" ∧
    f.module.references = [⟨.relative ".text" 4, ".bss", .absolute32, 0⟩,
      ⟨.relative ".text" 0, "far", .jump26, 0⟩] := by
  obtain ⟨data, f, hwritten, hread, -, -, -, hname, -, -, -, -, hreferences⟩ :=
    unmarshal_marshal (n := "far.o") built_callingModule rfl rfl usesStandardSections_callingModule
      fitsFile_callingModule (by decide) (by decide) fun r h => inBounds_callingModule h
  exact ⟨data, f, hwritten, hread, hname, hreferences.trans (by decide)⟩

def oddModule : Module where
  name := "m.o"
  order := .big
  symbols := [⟨"x", .unassigned 3, .internal, some (.absolute 0), false, .none⟩]
  finalized := true

/-- The type of a symbol matters for that: a type without a name is written, but not read. -/
theorem unmarshal_marshal_oddModule : oddModule.Built ∧ oddModule.finalized ∧
    oddModule.failed = false ∧ oddModule.UsesStandardSections ∧ oddModule.FitsFile ∧
    (∀ s ∈ oddModule.symbols, s.name.ZeroFree) ∧ oddModule.references = [] ∧
    ∃ data, marshal oddModule = .ok data ∧
      unmarshal "m.o" data = .ok (.error (.invalidType "x" 3)) := by
  have hbuilt : oddModule.Built := by
    have hnew := Module.Built.new "m.o" .big
    exact (hnew.define "x" (.unassigned 3) (.absolute 0) .none rfl).finalize
  exact ⟨hbuilt, rfl, rfl, ⟨by decide, by decide, by decide⟩,
    ⟨by decide, by decide, by decide, by decide, by decide⟩, by decide, rfl,
    _, rfl, by decide⟩

end RoundTrip

end ObjectFile

end MipsToolchain
