import MipsToolchain.Proofs.ObjectFile.RoundTrip

namespace MipsToolchain

open ObjectFile

namespace ObjectFile

variable {m : Module} {n : String}

section Entries

variable (strings : StringTable)

/-- Of the address of a symbol an entry has what is left of it in a file anyway. -/
theorem definitionEntry_stored (s : Symbol) :
    definitionEntry strings s.stored = definitionEntry strings s := by
  unfold definitionEntry
  cases h : s.address with
  | none => simp [Symbol.stored, definitionFlags, h]
  | some a => simp [Symbol.stored, definitionFlags, h]

theorem relocationEntry_stored (r : Reference) : relocationEntry r.stored = relocationEntry r := by
  simp [relocationEntry, Reference.stored]

theorem referenceEntry_stored (r : Reference) :
    referenceEntry strings r.stored = referenceEntry strings r := by
  simp [referenceEntry, Reference.stored]

end Entries

section Sections

variable (hfit : m.FitsFile)

include hfit

theorem offset_stored (s : StandardSection) : (m.stored n).offset s.name = m.offset s.name := by
  rw [← Module.length_contentsOf, contentsOf_stored_name (hfit.offset_lt s.name)]
  split
  · exact List.length_replicate
  · exact Module.length_contentsOf m _

theorem sectionSizes_stored : sectionSizes (m.stored n) = sectionSizes m := by
  simp only [sectionSizes, StandardSection.names, List.map_map, Function.comp_def,
    offset_stored hfit]

theorem contents_stored : contents (m.stored n) = contents m := by
  rw [contents_eq, contents_eq]
  refine congrArg (StandardSection.all.flatMap ·) (funext fun s => ?_)
  rw [storedBytes, storedBytes, contentsOf_stored_name (hfit.offset_lt s.name), nobits_flags]
  cases hasContents s <;> rfl

end Sections

section Tables

variable (hs : m.UsesStandardSections)

theorem filter_references_stored (keep : Name → Bool) :
    ((m.stored n).references.filter fun r => keep r.symbol) =
      ((m.sectionReferences ++ m.namedReferences).filter fun r => keep r.symbol).map
        Reference.stored :=
  List.filter_map

include hs

theorem isSectionName_stored (k : Name) : (m.stored n).isSectionName k = m.isSectionName k := by
  rw [Module.isSectionName_eq_decide standard_stored, Module.isSectionName_eq_decide hs.sections]

-- The two kinds of references were already apart when they were written first.
theorem sectionReferences_stored :
    (m.stored n).sectionReferences = m.sectionReferences.map Reference.stored := by
  simp only [Module.sectionReferences, isSectionName_stored hs]
  rw [filter_references_stored m.isSectionName]
  simp [Module.sectionReferences, Module.namedReferences, List.filter_filter]

theorem namedReferences_stored :
    (m.stored n).namedReferences = m.namedReferences.map Reference.stored := by
  simp only [Module.namedReferences, isSectionName_stored hs]
  rw [filter_references_stored (!m.isSectionName ·)]
  simp [Module.sectionReferences, Module.namedReferences, List.filter_filter]

theorem strings_stored : (m.stored n).strings = m.strings := by
  have hsymbols : (m.stored n).symbols.map Symbol.name = m.symbols.map Symbol.name := by
    simp [Module.stored, Symbol.stored]
  have hnames : (m.stored n).namedReferences.map Reference.symbol =
      m.namedReferences.map Reference.symbol := by
    simp [namedReferences_stored hs, Reference.stored]
  rw [Module.strings, Module.strings, hsymbols, hnames]

theorem tables_stored : (m.stored n).tables = m.tables := by
  have hsymbols : (m.stored n).symbols = m.symbols.map Symbol.stored := rfl
  simp only [Module.tables, strings_stored hs, sectionReferences_stored hs,
    namedReferences_stored hs, hsymbols, List.map_map, Function.comp_def, relocationEntry_stored,
    referenceEntry_stored, definitionEntry_stored]

theorem usesStandardSections_stored : (m.stored n).UsesStandardSections where
  sections := standard_stored
  symbols s hmem a ha hrel := by
    obtain ⟨t, ht, rfl⟩ := List.mem_map.mp hmem
    obtain ⟨b, hb, rfl⟩ := Option.map_eq_some_iff.mp ha
    rw [Address.isRelocatable, Address.sectionName_stored] at hrel
    exact b.sectionName_stored ▸ hs.symbols t ht b hb hrel
  references r hmem := by
    obtain ⟨q, hq, rfl⟩ := List.mem_map.mp hmem
    exact q.location.sectionName_stored ▸ hs.references q (mem_references_of_split hq)

end Tables

/-- Writing cannot tell what reading loses: the module of a file has the same file again. -/
theorem marshal_stored (hs : m.UsesStandardSections) (hfit : m.FitsFile) :
    marshal (m.stored n) = .ok (assemble m m.tables 0 0) := by
  refine marshal_eq_ok.mpr ⟨rfl, rfl, usesStandardSections_stored hs, ?_⟩
  simp only [assemble, tables_stored hs, sectionSizes_stored hfit, contents_stored hfit]
  rfl

/-- Object files are canonical: once read, under whatever name, they are written as they were. -/
theorem marshal_unmarshal_marshal (hb : m.Built) (hfin : m.finalized) (hok : m.failed = false)
    (hs : m.UsesStandardSections) (hfit : m.FitsFile) (hz : ∀ s ∈ m.symbols, s.name.ZeroFree)
    (ha : ∀ s ∈ m.symbols, s.type.isAssigned ∧ s.binding.isAssigned)
    (hr : ∀ r ∈ m.references, m.InBounds r.location ∧ r.kind.isAssigned) :
    ∃ data, marshal m = .ok data ∧
      ∀ n, ∃ f, unmarshal n data = .ok (.ok f) ∧ marshal f.module = .ok data :=
  ⟨_, marshal_eq_ok.mpr ⟨hfin, hok, hs, rfl⟩, fun _ =>
    ⟨_, unmarshal_stored hb.wellFormed hs hfit hz ha hr, marshal_stored hs hfit⟩⟩

-- In this module the constant of a reference is lost, and the references change places.
theorem marshal_unmarshal_marshal_callingModule : ∃ data f, marshal callingModule = .ok data ∧
    unmarshal "far.o" data = .ok (.ok f) ∧ f.module.references ≠ callingModule.references ∧
    marshal f.module = .ok data := by
  obtain ⟨data, hwritten, hall⟩ := marshal_unmarshal_marshal built_callingModule rfl rfl
    usesStandardSections_callingModule fitsFile_callingModule (by decide) (by decide)
    fun r h => inBounds_callingModule h
  obtain ⟨f, hread, hagain⟩ := hall "far.o"
  refine ⟨data, f, hwritten, hread, ?_, hagain⟩
  have hlost : (marshal callingModule).toOption.all fun data =>
      ((unmarshal "far.o" data).toOption.bind Except.toOption).all fun f =>
        decide (f.module.references ≠ callingModule.references) := by
    decide +kernel
  simpa [hwritten, hread, Except.toOption] using hlost

def wideModule : Module where
  name := "m.o"
  order := .big
  symbols := [⟨"x", .unassigned 16, .internal, some (.absolute 0), false, .none⟩]
  finalized := true

/-- A type that is too wide for its bits in an entry comes back as another one. -/
theorem marshal_unmarshal_marshal_wideModule : wideModule.Built ∧ wideModule.finalized ∧
    wideModule.failed = false ∧ wideModule.UsesStandardSections ∧ wideModule.FitsFile ∧
    (∀ s ∈ wideModule.symbols, s.name.ZeroFree) ∧ wideModule.references = [] ∧
    ∃ data f, marshal wideModule = .ok data ∧ unmarshal "m.o" data = .ok (.ok f) ∧
      marshal f.module ≠ .ok data := by
  have hbuilt : wideModule.Built := by
    have hnew := Module.Built.new "m.o" .big
    exact (hnew.define "x" (.unassigned 16) (.absolute 0) .none rfl).finalize
  have hcut : (marshal wideModule).toOption.any fun data =>
      ((unmarshal "m.o" data).toOption.bind Except.toOption).any fun f =>
        decide (marshal f.module ≠ .ok data) := by
    decide
  obtain ⟨data, hdata, hcut⟩ := (Option.any_eq_true _ _).mp hcut
  obtain ⟨f, hf, hne⟩ := (Option.any_eq_true _ _).mp hcut
  obtain ⟨y, hy, hf⟩ := Option.bind_eq_some_iff.mp hf
  rw [except_toOption_eq_some] at hdata hy hf
  subst hf
  exact ⟨hbuilt, rfl, rfl, ⟨by decide, by decide, by decide⟩,
    ⟨by decide, by decide, by decide, by decide, by decide⟩, by decide, rfl, data, f, hdata, hy,
    of_decide_eq_true hne⟩

section Prefixes

variable {name : String} {data : List UInt8} {f : File}

theorem unmarshal_of_readHeader_error {e : ReadError} (h : readHeader data = .error e) :
    unmarshal name data = .ok (.error e) := by
  simp [unmarshal, h, bind, Except.bind]

theorem unmarshal_of_readParts_error {h : Header} {rest : List UInt8} {e : ReadError}
    (hh : readHeader data = .ok (h, rest)) (hp : readParts h rest = .error e) :
    unmarshal name data = .ok (.error e) := by
  simp [unmarshal, hh, hp, bind, Except.bind]

theorem bodySize_eq (h : Header) {text rodata data sdata sbss bss : UInt32}
    (hs : h.sizes = [text, rodata, data, sdata, sbss, bss]) : h.bodySize =
      text.toNat + rodata.toNat + data.toNat + sdata.toNat + 8 * h.relocations.toNat +
        16 * (h.references.toNat + h.definitions.toNat) + h.strings.toNat := by
  simp only [Header.bodySize, hs, StandardSection.all, List.zip_cons_cons, List.zip_nil_left,
    List.map_cons, List.map_nil, storedSize, hasContents, if_true, Bool.false_eq_true, if_false,
    List.sum_cons, List.sum_nil, RelocationEntry.size, SymbolEntry.size]
  omega

/-- The header of a file says how long the file is, so no file is the start of another one. What is
shorter is refused as such, and so is what is longer. -/
theorem unmarshal_prefix_free (h : unmarshal name data = .ok (.ok f)) :
    readHeader data = .ok (f.header, data.drop headerSize) ∧
    (∃ text rodata datas sdata sbss bss : UInt32,
      f.header.sizes = [text, rodata, datas, sdata, sbss, bss] ∧
      data.length = 52 + (text.toNat + rodata.toNat + datas.toNat + sdata.toNat) +
        8 * f.header.relocations.toNat +
        16 * (f.header.references.toNat + f.header.definitions.toNat) + f.header.strings.toNat) ∧
    (∀ part, part <+: data → part ≠ data → ∀ n, unmarshal n part = .ok (.error
      (if part.length < headerSize then .truncatedHeader else .malformed))) ∧
    ∀ whole, data <+: whole → data ≠ whole →
      ∀ n, unmarshal n whole = .ok (.error .trailingData) := by
  obtain ⟨header, rest, parts, m, hheader, hparts, -, rfl⟩ := unmarshal_eq_ok.mp h
  obtain ⟨hlen, rfl, hsizes, hsame⟩ := readHeader_eq_ok hheader
  have hbody := length_of_readParts hparts
  rw [List.length_drop] at hbody
  have hfull : data.length = headerSize + header.bodySize := by omega
  refine ⟨hheader, ?_, fun part hpart hne n => ?_, fun whole hwhole hne n => ?_⟩
  · obtain ⟨text, rodata, datas, sdata, sbss, bss, hs⟩ :
        ∃ a b c d e g, header.sizes = [a, b, c, d, e, g] := by
      match hs : header.sizes, hsizes with
      | [a, b, c, d, e, g], _ => exact ⟨a, b, c, d, e, g, rfl⟩
    refine ⟨text, rodata, datas, sdata, sbss, bss, hs, ?_⟩
    rw [hfull, bodySize_eq header hs, headerSize]
    dsimp only
    omega
  · have hshort : part.length < data.length :=
      lt_of_le_of_ne hpart.length_le fun heq => hne (hpart.eq_of_length heq)
    split
    · next hhead => exact unmarshal_of_readHeader_error (readHeader_short hhead)
    · next hhead =>
      have htake : part.take headerSize = data.take headerSize := by
        obtain ⟨more, rfl⟩ := hpart
        exact (List.take_append_of_le_length (Nat.le_of_not_lt hhead)).symm
      refine unmarshal_of_readParts_error (hsame part htake) (readParts_short ?_)
      rw [List.length_drop]
      omega
  · have hlong : data.length < whole.length :=
      lt_of_le_of_ne hwhole.length_le fun heq => hne (hwhole.eq_of_length heq)
    have htake : whole.take headerSize = data.take headerSize := by
      obtain ⟨more, rfl⟩ := hwhole
      exact List.take_append_of_le_length hlen
    refine unmarshal_of_readParts_error (hsame whole htake) (readParts_long ?_)
    rw [List.length_drop]
    omega

theorem unmarshal_prefix_free_callingModule : ∃ data f, marshal callingModule = .ok data ∧
    unmarshal "call.o" data = .ok (.ok f) ∧ data.length = 52 + 8 + 8 * 1 + 16 * (1 + 2) + 10 ∧
    (∀ k < data.length, unmarshal "call.o" (data.take k) = .ok (.error
      (if k < headerSize then .truncatedHeader else .malformed))) ∧
    ∀ b, unmarshal "call.o" (data ++ [b]) = .ok (.error .trailingData) := by
  have hlen : (marshal callingModule).toOption.any fun data => data.length == 126 := by
    decide +kernel
  obtain ⟨data, hdata, hlen⟩ := (Option.any_eq_true _ _).mp hlen
  rw [except_toOption_eq_some] at hdata
  rw [beq_iff_eq] at hlen
  obtain ⟨-, -, hs, rfl⟩ := marshal_eq_ok.mp hdata
  have hread := unmarshal_stored (n := "call.o") built_callingModule.wellFormed hs
    fitsFile_callingModule (by decide) (by decide) fun r h => inBounds_callingModule h
  obtain ⟨-, -, hshort, hlong⟩ := unmarshal_prefix_free hread
  refine ⟨_, _, hdata, hread, hlen, fun k hk => ?_, fun b => ?_⟩
  · have hcut := List.length_take_of_le hk.le
    have hpart := hshort _ (List.take_prefix k _) (fun heq => by rw [heq] at hcut; omega) "call.o"
    rw [hcut] at hpart
    exact hpart
  · exact hlong _ (List.prefix_append _ [b]) (by simp) "call.o"

end Prefixes

end ObjectFile

end MipsToolchain
