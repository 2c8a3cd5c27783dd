import MipsToolchain.Proofs.Object.Building
import MipsToolchain.Proofs.ObjectFile.Names

namespace MipsToolchain

/-- Whether nothing of a module is outside of standard sections. -/
structure Module.UsesStandardSections (m : Module) : Prop where
  sections : ∀ s ∈ m.sections, s.name ∈ StandardSection.names
  symbols : ∀ s ∈ m.symbols, ∀ a, s.address = some a → a.isRelocatable →
    a.sectionName ∈ StandardSection.names
  references : ∀ r ∈ m.references, r.location.sectionName ∈ StandardSection.names

namespace ObjectFile

theorem exists_standard {n : Name} (h : n ∈ StandardSection.names) :
    ∃ s : StandardSection, s.name = n := by
  obtain ⟨s, -, hs⟩ := List.mem_map.mp h
  exact ⟨s, hs⟩

theorem ofName?_name (s : StandardSection) : StandardSection.ofName? s.name = some s := by
  cases s <;> decide

theorem ofName?_eq_none {n : Name} (h : n ∉ StandardSection.names) :
    StandardSection.ofName? n = none := by
  rw [StandardSection.ofName?, List.find?_eq_none]
  intro s hs
  simpa using fun hn => h (List.mem_map.mpr ⟨s, hs, hn⟩)

def idOf (n : Name) : UInt8 := ((StandardSection.ofName? n).map sectionId).getD 0

@[simp]
theorem idOf_name (s : StandardSection) : idOf s.name = sectionId s := by
  rw [idOf, ofName?_name]
  rfl

theorem idOf_empty : idOf .empty = 0 := by decide

theorem idOfName_eq_ok {n : Name} {id : UInt8} :
    idOfName n = .ok id ↔ n ∈ StandardSection.names ∧ id = idOf n := by
  by_cases h : n ∈ StandardSection.names
  · obtain ⟨s, rfl⟩ := exists_standard h
    simp [idOfName, ofName?_name, h, eq_comm]
  · simp [idOfName, ofName?_eq_none h, h]

section Entries

variable (strings : StringTable)

def definitionFlags (s : Symbol) : UInt32 := s.binding.code.toUInt32 <<< 5 ||| s.type.code.toUInt32 <<< 8

def definitionEntry (s : Symbol) : SymbolEntry :=
  match s.address with
  | none => ⟨definitionFlags s, 0, strings.index s.name, 0⟩
  | some a => ⟨definitionFlags s ||| definedFlag ||| (idOf a.sectionName).toUInt32,
      Isa.lowWord a.value, strings.index s.name, 0⟩

def indexedEntry (i : UInt16) (s : Symbol) : SymbolEntry :=
  { definitionEntry strings s with objectIndex := i }

theorem indexedEntry_zero (s : Symbol) : indexedEntry strings 0 s = definitionEntry strings s := by
  unfold indexedEntry definitionEntry
  cases s.address <;> rfl

def startEntry (s : Section) : SymbolEntry :=
  ⟨(idOf s.name).toUInt32 ||| definedFlag ||| sectionStartFlag, s.virtualAddress.toUInt32,
    strings.index s.name, 0⟩

def relocationEntry (r : Reference) : RelocationEntry :=
  ⟨Isa.lowWord r.location.value, idOf r.location.sectionName, r.kind.code ||| idOf r.symbol <<< 4⟩

def referenceEntry (r : Reference) : SymbolEntry :=
  ⟨(idOf r.location.sectionName).toUInt32 ||| r.kind.code.toUInt32 <<< 8,
    Isa.lowWord r.location.value, strings.index r.symbol, 0⟩

end Entries

end ObjectFile

namespace Module

def sectionReferences (m : Module) : List Reference :=
  m.references.filter fun r => m.isSectionName r.symbol

def namedReferences (m : Module) : List Reference :=
  m.references.filter fun r => !m.isSectionName r.symbol

def strings (m : Module) : ObjectFile.StringTable :=
  ObjectFile.StringTable.empty.addAll
    (m.symbols.map Symbol.name ++ m.namedReferences.map Reference.symbol)

def tables (m : Module) : ObjectFile.Tables where
  relocations := m.sectionReferences.map ObjectFile.relocationEntry
  references := m.namedReferences.map (ObjectFile.referenceEntry m.strings)
  definitions := m.symbols.map (ObjectFile.definitionEntry m.strings)
  strings := m.strings

end Module

namespace ObjectFile

def Representable (s : Symbol) : Prop :=
  ∀ a, s.address = some a → a.isRelocatable → a.sectionName ∈ StandardSection.names

theorem sectionName_eq_empty {a : Address} (h : ¬ a.isRelocatable) : a.sectionName = .empty := by
  obtain ⟨v, ⟨bytes⟩⟩ := a
  cases bytes with
  | nil => rfl
  | cons b bs => simp [Address.isRelocatable, RawText.isEmpty] at h

theorem symbolEntry_eq_ok {strings : StringTable} {i : UInt16} {s : Symbol} {e : SymbolEntry} :
    symbolEntry s (strings.index s.name) i = .ok e ↔
      Representable s ∧ e = indexedEntry strings i s := by
  unfold symbolEntry indexedEntry definitionEntry definitionFlags Representable
  cases s.address with
  | none =>
    constructor
    · intro he
      cases he
      exact ⟨by simp, rfl⟩
    · rintro ⟨-, rfl⟩
      rfl
  | some a =>
    dsimp only
    by_cases ha : a.isRelocatable
    · simp only [if_pos ha, except_bind_eq_ok, idOfName_eq_ok]
      constructor
      · rintro ⟨id, ⟨hn, rfl⟩, he⟩
        cases he
        exact ⟨fun b hb _ => by cases hb; exact hn, rfl⟩
      · rintro ⟨hn, rfl⟩
        exact ⟨_, ⟨hn a rfl ha, rfl⟩, rfl⟩
    · rw [if_neg ha, sectionName_eq_empty ha, idOf_empty]
      constructor
      · intro he
        cases he
        exact ⟨fun b hb hrel => by cases hb; exact absurd hrel ha, rfl⟩
      · rintro ⟨-, rfl⟩
        rfl

def Tables.enter (t : Tables) (n : Name) (entry : StringTable → SymbolEntry) : Tables :=
  { t with
    definitions := t.definitions ++ [entry (t.strings.add n).2]
    strings := (t.strings.add n).2 }

theorem addDefinition_eq_ok {t t' : Tables} {i : UInt16} {s : Symbol} :
    t.addDefinition i s = .ok t' ↔ Representable s ∧ t' = t.enter s.name (indexedEntry · i s) := by
  have hindex : (t.strings.add s.name).1 = (t.strings.add s.name).2.index s.name :=
    StringTable.index_add_self.symm
  unfold Tables.addDefinition
  dsimp only
  rw [hindex, except_bind_eq_ok]
  constructor
  · rintro ⟨e, he, ht⟩
    obtain ⟨hs, rfl⟩ := symbolEntry_eq_ok.mp he
    cases ht
    exact ⟨hs, rfl⟩
  · rintro ⟨hs, rfl⟩
    exact ⟨_, symbolEntry_eq_ok.mpr ⟨hs, rfl⟩, rfl⟩

theorem addSectionStart_eq_ok {t t' : Tables} {s : Section} : t.addSectionStart s = .ok t' ↔
    s.name ∈ StandardSection.names ∧ t' = t.enter s.name (startEntry · s) := by
  have hindex : (t.strings.add s.name).1 = (t.strings.add s.name).2.index s.name :=
    StringTable.index_add_self.symm
  unfold Tables.addSectionStart
  dsimp only
  rw [hindex, except_bind_eq_ok]
  constructor
  · rintro ⟨id, hid, ht⟩
    obtain ⟨hs, rfl⟩ := idOfName_eq_ok.mp hid
    cases ht
    exact ⟨hs, rfl⟩
  · rintro ⟨hs, rfl⟩
    exact ⟨_, idOfName_eq_ok.mpr ⟨hs, rfl⟩, rfl⟩

section Stable

variable {strings : StringTable}

theorem definitionEntry_addAll {s : Symbol} (h : s.name ∈ strings.names) (ns : List Name) :
    definitionEntry (strings.addAll ns) s = definitionEntry strings s := by
  unfold definitionEntry
  rw [StringTable.index_addAll_of_mem h]

theorem startEntry_addAll {s : Section} (h : s.name ∈ strings.names) (ns : List Name) :
    startEntry (strings.addAll ns) s = startEntry strings s := by
  unfold startEntry
  rw [StringTable.index_addAll_of_mem h]

end Stable

-- An entry is made while the table of strings is still short, but later names change no index.
theorem addEntries_eq_ok {α : Type} (add : Tables → α → Except WriteError Tables) (name : α → Name)
    (entry : StringTable → α → SymbolEntry) {ok : α → Prop}
    (hadd : ∀ t a t', add t a = .ok t' ↔ ok a ∧ t' = t.enter (name a) (entry · a))
    (hentry : ∀ strings a ns, name a ∈ strings.names →
      entry (strings.addAll ns) a = entry strings a) {as : List α} {t t' : Tables} :
    as.foldlM add t = .ok t' ↔ (∀ a ∈ as, ok a) ∧ t' =
      { t with
        definitions := t.definitions ++ as.map (entry (t.strings.addAll (as.map name)))
        strings := t.strings.addAll (as.map name) } := by
  induction as generalizing t with
  | nil =>
    simp only [List.foldlM_nil, List.map_nil, List.append_nil]
    constructor
    · intro h
      cases h
      exact ⟨by simp, rfl⟩
    · rintro ⟨-, rfl⟩
      rfl
  | cons a as ih =>
    have hstable := hentry _ a (as.map name) (StringTable.mem_add t.strings (name a))
    simp only [List.foldlM_cons, except_bind_eq_ok, hadd, List.map_cons, StringTable.addAll_cons,
      List.forall_mem_cons]
    constructor
    · rintro ⟨t₁, ⟨ha, rfl⟩, h⟩
      obtain ⟨has, rfl⟩ := ih.mp h
      exact ⟨⟨ha, has⟩, by simp [Tables.enter, hstable]⟩
    · rintro ⟨⟨ha, has⟩, rfl⟩
      exact ⟨_, ⟨ha, rfl⟩, ih.mpr ⟨has, by simp [Tables.enter, hstable]⟩⟩

theorem addDefinitions_eq_ok {ss : List Symbol} {t t' : Tables} (index : Symbol → UInt16) :
    ss.foldlM (fun t s => t.addDefinition (index s) s) t = .ok t' ↔
      (∀ s ∈ ss, Representable s) ∧ t' =
        { t with
          definitions := t.definitions ++ ss.map fun s =>
            indexedEntry (t.strings.addAll (ss.map Symbol.name)) (index s) s
          strings := t.strings.addAll (ss.map Symbol.name) } :=
  addEntries_eq_ok (fun t s => t.addDefinition (index s) s) Symbol.name
    (fun strings s => indexedEntry strings (index s) s)
    (fun _ _ _ => addDefinition_eq_ok) fun strings s ns h => by
      rw [indexedEntry, indexedEntry, definitionEntry_addAll h]

variable {m : Module}

theorem addReference_eq_ok (hm : ∀ s ∈ m.sections, s.name ∈ StandardSection.names)
    {t t' : Tables} {r : Reference} :
    Tables.addReference m t r = .ok t' ↔ r.location.sectionName ∈ StandardSection.names ∧ t' =
      if m.isSectionName r.symbol then
        { t with relocations := t.relocations ++ [relocationEntry r] }
      else
        { t with
          references := t.references ++ [referenceEntry (t.strings.add r.symbol).2 r]
          strings := (t.strings.add r.symbol).2 } := by
  have hindex : (t.strings.add r.symbol).1 = (t.strings.add r.symbol).2.index r.symbol :=
    StringTable.index_add_self.symm
  unfold Tables.addReference
  dsimp only
  rw [except_bind_eq_ok, hindex]
  simp only [idOfName_eq_ok]
  split
  · next hsection =>
    have htarget : r.symbol ∈ StandardSection.names :=
      of_decide_eq_true ((Module.isSectionName_eq_decide hm _).symm.trans hsection)
    constructor
    · rintro ⟨id, ⟨hn, rfl⟩, h⟩
      obtain ⟨target, ht, h⟩ := except_bind_eq_ok.mp h
      obtain ⟨-, rfl⟩ := idOfName_eq_ok.mp ht
      cases h
      exact ⟨hn, rfl⟩
    · rintro ⟨hn, rfl⟩
      exact ⟨_, ⟨hn, rfl⟩, except_bind_eq_ok.mpr ⟨_, idOfName_eq_ok.mpr ⟨htarget, rfl⟩, rfl⟩⟩
  · constructor
    · rintro ⟨id, ⟨hn, rfl⟩, h⟩
      cases h
      exact ⟨hn, rfl⟩
    · rintro ⟨hn, rfl⟩
      exact ⟨_, ⟨hn, rfl⟩, rfl⟩

theorem referenceEntry_addAll {strings : StringTable} {r : Reference}
    (h : r.symbol ∈ strings.names) (ns : List Name) :
    referenceEntry (strings.addAll ns) r = referenceEntry strings r := by
  unfold referenceEntry
  rw [StringTable.index_addAll_of_mem h]

theorem addReferences_eq_ok (hm : ∀ s ∈ m.sections, s.name ∈ StandardSection.names)
    {rs : List Reference} {t t' : Tables} :
    rs.foldlM (Tables.addReference m) t = .ok t' ↔
      (∀ r ∈ rs, r.location.sectionName ∈ StandardSection.names) ∧ t' =
        let named := rs.filter fun r => !m.isSectionName r.symbol
        let strings := t.strings.addAll (named.map Reference.symbol)
        { t with
          relocations := t.relocations ++
            (rs.filter fun r => m.isSectionName r.symbol).map relocationEntry
          references := t.references ++ named.map (referenceEntry strings)
          strings } := by
  induction rs generalizing t with
  | nil =>
    constructor
    · intro h
      cases h
      exact ⟨by simp, by simp [StringTable.addAll]⟩
    · rintro ⟨-, rfl⟩
      simp [StringTable.addAll, pure, Except.pure]
  | cons r rs ih =>
    -- Strings that are entered later do not move a name, so an entry is the same in the final
    -- table.
    have hentry := referenceEntry_addAll (StringTable.mem_add t.strings r.symbol)
      ((rs.filter fun r => !m.isSectionName r.symbol).map Reference.symbol)
    simp only [List.foldlM_cons, except_bind_eq_ok, addReference_eq_ok hm, List.forall_mem_cons]
    by_cases hsection : m.isSectionName r.symbol
    · simp only [List.filter_cons, hsection, if_true, Bool.not_true]
      constructor
      · rintro ⟨t₁, ⟨hn, rfl⟩, h⟩
        obtain ⟨hrs, rfl⟩ := ih.mp h
        exact ⟨⟨hn, hrs⟩, by simp⟩
      · rintro ⟨⟨hn, hrs⟩, rfl⟩
        exact ⟨_, ⟨hn, rfl⟩, ih.mpr ⟨hrs, by simp⟩⟩
    · simp only [List.filter_cons, hsection, Bool.not_false, if_true, List.map_cons,
        StringTable.addAll_cons]
      constructor
      · rintro ⟨t₁, ⟨hn, rfl⟩, h⟩
        obtain ⟨hrs, rfl⟩ := ih.mp h
        exact ⟨⟨hn, hrs⟩, by simp [hentry]⟩
      · rintro ⟨⟨hn, hrs⟩, rfl⟩
        exact ⟨_, ⟨hn, rfl⟩, ih.mpr ⟨hrs, by simp [hentry]⟩⟩

theorem checkSections_eq_ok {u : Unit} :
    checkSections m = .ok u ↔ ∀ s ∈ m.sections, s.name ∈ StandardSection.names := by
  have hcheck : ∀ n : Name,
      (discard (idOfName n) : Except WriteError Unit) = .ok () ↔ n ∈ StandardSection.names := by
    intro n
    change (idOfName n).map (fun _ => ()) = .ok () ↔ _
    simp [except_map_eq_ok, idOfName_eq_ok]
  unfold checkSections
  rw [except_forM_eq_ok]
  simp only [hcheck]

-- Names of references come behind those of symbols, which keep their places.
theorem addTables_eq_ok (hm : ∀ s ∈ m.sections, s.name ∈ StandardSection.names) {t : Tables} :
    (m.symbols.foldlM (Tables.addDefinition · 0) {} >>=
        fun t => m.references.foldlM (Tables.addReference m) t) = .ok t ↔
      (∀ s ∈ m.symbols, Representable s) ∧
        (∀ r ∈ m.references, r.location.sectionName ∈ StandardSection.names) ∧ t = m.tables := by
  have hstrings : m.strings = (StringTable.empty.addAll (m.symbols.map Symbol.name)).addAll
      (m.namedReferences.map Reference.symbol) := StringTable.addAll_append _ _ _
  have hdefinitions : m.symbols.map (definitionEntry m.strings) = m.symbols.map
      (definitionEntry (StringTable.empty.addAll (m.symbols.map Symbol.name))) := by
    refine List.map_congr_left fun s hs => ?_
    rw [hstrings]
    exact definitionEntry_addAll (StringTable.mem_addAll (List.mem_map_of_mem hs)) _
  have hfirst : ∀ {t t' : Tables}, m.symbols.foldlM (Tables.addDefinition · 0) t = .ok t' ↔ _ :=
    addDefinitions_eq_ok fun _ => 0
  rw [Module.tables, hdefinitions, hstrings]
  simp only [except_bind_eq_ok, hfirst, indexedEntry_zero, addReferences_eq_ok hm]
  constructor
  · rintro ⟨_, ⟨hsymbols, rfl⟩, hlocations, rfl⟩
    exact ⟨hsymbols, hlocations, rfl⟩
  · rintro ⟨hsymbols, hlocations, rfl⟩
    exact ⟨_, ⟨hsymbols, rfl⟩, hlocations, rfl⟩

/-- A module has an object file unless it is unfinished, failed or has other than standard sections,
and then the file is made of its sections and its tables. -/
theorem marshal_eq_ok {data : List UInt8} : marshal m = .ok data ↔
    m.finalized ∧ m.failed = false ∧ m.UsesStandardSections ∧ data = assemble m m.tables 0 0 := by
  unfold marshal
  by_cases hfinal : m.finalized
  · by_cases hfailed : m.failed
    · simp [hfinal, hfailed, throw, throwThe, MonadExceptOf.throw, bind, Except.bind]
    · simp only [hfinal, hfailed, Bool.not_true, Bool.false_eq_true, if_false]
      constructor
      · intro h
        obtain ⟨u, hsections, h⟩ := except_bind_eq_ok.mp h
        obtain ⟨t, hdefinitions, h⟩ := except_bind_eq_ok.mp h
        obtain ⟨t', hreferences, hdata⟩ := except_bind_eq_ok.mp h
        have hstandard := checkSections_eq_ok.mp hsections
        obtain ⟨hsymbols, hlocations, rfl⟩ :=
          (addTables_eq_ok hstandard).mp (except_bind_eq_ok.mpr ⟨t, hdefinitions, hreferences⟩)
        cases hdata
        exact ⟨trivial, trivial, ⟨hstandard, hsymbols, hlocations⟩, rfl⟩
      · rintro ⟨-, -, ⟨hstandard, hsymbols, hlocations⟩, rfl⟩
        obtain ⟨t, hdefinitions, hreferences⟩ := except_bind_eq_ok.mp
          ((addTables_eq_ok hstandard).mpr ⟨hsymbols, hlocations, rfl⟩)
        refine except_bind_eq_ok.mpr ⟨(), checkSections_eq_ok.mpr hstandard, ?_⟩
        exact except_bind_eq_ok.mpr ⟨t, hdefinitions, except_bind_eq_ok.mpr ⟨_, hreferences, rfl⟩⟩
  · simp [hfinal, throw, throwThe, MonadExceptOf.throw, bind, Except.bind]

end ObjectFile

end MipsToolchain
