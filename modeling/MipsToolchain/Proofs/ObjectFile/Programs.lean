import MipsToolchain.Proofs.Link.ReadBack
import MipsToolchain.Proofs.ObjectFile.RoundTrip

namespace MipsToolchain

open ObjectFile ObjectFile.Build

namespace Program

/-- The names in an executable file: those of sections, and then those of symbols. -/
def strings (p : Program) : StringTable :=
  StringTable.empty.addAll (p.image.sections.map Section.name ++ p.image.symbols.map Symbol.name)

def tables (p : Program) : Tables where
  definitions := p.image.sections.map (startEntry p.strings) ++
    p.image.symbols.map fun s => indexedEntry p.strings (marshalProgram.index p s) s
  strings := p.strings

def fileHeader (p : Program) : Header where
  magic := ObjectFile.magic
  version := formatVersion
  flags := executableFlag ||| if p.image.order = .little then littleFlag else 0
  entry := p.entry
  sizes := sectionSizes p.image
  relocations := 0
  references := 0
  definitions := p.tables.definitions.length.toUInt32
  strings := p.strings.encode.length.toUInt32

/-- Whether an executable file can count everything in a program. -/
structure FitsFile (p : Program) : Prop where
  sections : ∀ t ∈ p.image.sections, t.length < 2 ^ 32
  definitions : p.image.sections.length + p.image.symbols.length < 2 ^ 32
  strings : p.strings.encode.length < 2 ^ 32

instance (p : Program) : Decidable p.FitsFile :=
  decidable_of_iff ((∀ t ∈ p.image.sections, t.length < 2 ^ 32) ∧
      p.image.sections.length + p.image.symbols.length < 2 ^ 32 ∧ p.strings.encode.length < 2 ^ 32)
    ⟨fun h => ⟨h.1, h.2.1, h.2.2⟩, fun h => ⟨h.sections, h.definitions, h.strings⟩⟩

variable {p : Program}

theorem order_fileHeader (p : Program) :
    p.fileHeader.order = p.image.order ∧ p.fileHeader.isExecutable = true :=
  order_flags (.inr rfl) p.image.order

theorem assemble_eq (p : Program) : assemble p.image p.tables executableFlag p.entry =
    p.fileHeader.encode ++ (contents p.image ++ p.tables.encode) := by
  rw [← List.append_assoc]
  rfl

theorem mem_strings_of_section {t : Section} (h : t ∈ p.image.sections) :
    t.name ∈ p.strings.names :=
  StringTable.mem_addAll (List.mem_append_left _ (List.mem_map_of_mem h))

theorem mem_strings_of_symbol {s : Symbol} (h : s ∈ p.image.symbols) : s.name ∈ p.strings.names :=
  StringTable.mem_addAll (List.mem_append_right _ (List.mem_map_of_mem h))

/-- A program has an executable file unless it has other than standard sections. -/
theorem marshalProgram_eq_ok {data : List UInt8} : marshalProgram p = .ok data ↔
    (∀ t ∈ p.image.sections, t.name ∈ StandardSection.names) ∧
      (∀ s ∈ p.image.symbols, Representable s) ∧
      data = assemble p.image p.tables executableFlag p.entry := by
  have hstarts : ∀ {t t' : Tables}, p.image.sections.foldlM Tables.addSectionStart t = .ok t' ↔ _ :=
    addEntries_eq_ok Tables.addSectionStart Section.name startEntry
      (fun _ _ _ => addSectionStart_eq_ok) fun _ _ ns h => startEntry_addAll h ns
  have hstrings : p.strings = (StringTable.empty.addAll (p.image.sections.map Section.name)).addAll
      (p.image.symbols.map Symbol.name) := StringTable.addAll_append _ _ _
  have hentries : p.image.sections.map (startEntry p.strings) = p.image.sections.map
      (startEntry (StringTable.empty.addAll (p.image.sections.map Section.name))) := by
    refine List.map_congr_left fun t ht => ?_
    rw [hstrings]
    exact startEntry_addAll (StringTable.mem_addAll (List.mem_map_of_mem ht)) _
  unfold marshalProgram
  simp only [except_bind_eq_ok, checkSections_eq_ok, hstarts, addDefinitions_eq_ok]
  constructor
  · rintro ⟨_, hstandard, _, ⟨-, rfl⟩, _, ⟨hsymbols, rfl⟩, hdata⟩
    cases hdata
    refine ⟨hstandard, hsymbols, ?_⟩
    rw [tables, hentries, hstrings]
    rfl
  · rintro ⟨hstandard, hsymbols, rfl⟩
    refine ⟨(), hstandard, _, ⟨hstandard, rfl⟩, _, ⟨hsymbols, rfl⟩, ?_⟩
    rw [tables, hentries, hstrings]
    rfl

end Program

def Section.fresh (n : Name) : Section := ⟨n, standardFlags n, 0, 0, .empty⟩

/-- A section at the address of another one, as far as a file has that. -/
def Section.placedAs (u t : Section) : Section :=
  { u with virtualAddress := t.virtualAddress.toUInt32.toUInt64 }

namespace Module

/-- Place the section of a name as a file says. Without contents it comes about by that. -/
def placeStart (m : Module) (t : Section) : Module :=
  (if (m.section? t.name).isSome then m
    else m.addNew (.fresh t.name)).updateSection t.name (·.placedAs t)

variable {m : Module}

theorem section?_placeStart (t : Section) (n : Name) : (m.placeStart t).section? n =
    if n = t.name then
      some (((m.section? n).getD (.fresh n)).placedAs t)
    else m.section? n := by
  have hname : ∀ u : Section, (u.placedAs t).name = u.name := fun _ => rfl
  unfold placeStart
  rw [section?_updateSection _ _ _ _ hname]
  split
  · next hn =>
    subst hn
    cases h : m.section? t.name with
    | some u =>
      rw [Option.isSome_some, if_pos rfl, h]
      rfl
    | none =>
      rw [Option.isSome_none, if_neg Bool.false_ne_true, section?_addNew (s := .fresh t.name) h,
        if_pos (show t.name = (Section.fresh t.name).name from rfl)]
      rfl
  · next hn =>
    cases h : m.section? t.name with
    | some u => rw [Option.isSome_some, if_pos rfl]
    | none =>
      rw [Option.isSome_none, if_neg Bool.false_ne_true]
      exact (section?_addNew (s := .fresh t.name) h n).trans (if_neg hn)

theorem section?_placeStarts {ts : List Section} (hd : (ts.map Section.name).Nodup) (n : Name) :
    (ts.foldl placeStart m).section? n = match ts.find? (·.name = n) with
      | none => m.section? n
      | some t => some (((m.section? n).getD (.fresh n)).placedAs t) := by
  induction ts generalizing m with
  | nil => rfl
  | cons t ts ih =>
    obtain ⟨hfresh, hd⟩ := List.nodup_cons.mp hd
    rw [List.foldl_cons, ih hd, section?_placeStart, List.find?_cons]
    by_cases hn : n = t.name
    · have hnone : ts.find? (·.name = n) = none := List.find?_eq_none.mpr fun u hu heq =>
        hfresh (List.mem_map.mpr ⟨u, hu, (of_decide_eq_true heq).trans hn⟩)
      rw [hnone, if_pos hn, ← hn, decide_eq_true rfl]
    · rw [if_neg hn, decide_eq_false (Ne.symm hn)]

theorem placeStarts_eq (ts : List Section) :
    ts.foldl placeStart m = { m with sections := (ts.foldl placeStart m).sections } := by
  induction ts generalizing m with
  | nil => rfl
  | cons t ts ih =>
    have hstep : m.placeStart t = { m with sections := (m.placeStart t).sections } := by
      unfold placeStart
      split <;> rfl
    rw [List.foldl_cons, ih, hstep]

end Module

namespace ObjectFile

section Starts

variable {h : Header} {strings : StringTable} {m : Module} {t : Section}

theorem fields_startEntry (strings : StringTable) (ht : t.name ∈ StandardSection.names) :
    (startEntry strings t).isSectionStart = true ∧ (startEntry strings t).sectionId = idOf t.name := by
  obtain ⟨s, hs⟩ := exists_standard ht
  unfold startEntry SymbolEntry.isSectionStart SymbolEntry.sectionId
  dsimp only
  rw [← hs, idOf_name]
  cases s <;> decide

theorem zeroFree_standard {n : Name} (h : n ∈ StandardSection.names) : n.ZeroFree := by
  revert n
  decide

theorem makes_modify {f : Module → Module} : (modify f : Build Unit).Makes m () (f m) := rfl

variable (hx : h.isExecutable) (hlt : strings.encode.length < 2 ^ 32)

include hx hlt

theorem makes_startEntry (ht : t.name ∈ StandardSection.names) (hn : t.name ∈ strings.names)
    (hm : m.finalized = false) :
    (addDefinition h strings.encode (startEntry strings t)).Makes m () (m.placeStart t) := by
  obtain ⟨hstart, hid⟩ := fields_startEntry strings ht
  obtain ⟨s, hs⟩ := exists_standard ht
  have hflags : s.flags = standardFlags t.name := by rw [← hs, standardFlags_name]
  have hname : stringAt strings.encode (startEntry strings t).nameIndex = .ok t.name :=
    StringTable.stringAt_index hn (zeroFree_standard ht) hlt
  have hof : StandardSection.ofName? t.name = some s := by rw [← hs, ofName?_name]
  have hadd : ∃ u, m.perform (Module.addSection t.name s.flags) = .ok (u,
      if (m.section? t.name).isSome then m
        else m.addNew (.fresh t.name)) := by
    rw [hflags]
    cases hu : m.section? t.name with
    | some u => exact ⟨u, Module.perform_addSection_of_some hu _⟩
    | none => exact ⟨_, Module.perform_addSection_of_none hm hu _⟩
  obtain ⟨u, hadd⟩ := hadd
  refine makes_bind.mpr ⟨t.name, m, makes_check.mpr ⟨hname, rfl⟩, ?_⟩
  rw [if_pos hstart, addSectionStart]
  refine makes_unless.mpr ⟨by simp [hx], ?_⟩
  rw [hof]
  refine makes_unless.mpr ⟨by rw [hid, ← hs, idOf_name]; exact not_not.mpr rfl, ?_⟩
  exact makes_bind.mpr ⟨(), _, makes_discard.mpr ⟨u, makes_lift.mpr hadd⟩, makes_modify⟩

theorem makes_startEntries {ts : List Section} (ht : ∀ t ∈ ts, t.name ∈ StandardSection.names)
    (hn : ∀ t ∈ ts, t.name ∈ strings.names) (hm : m.finalized = false) :
    ((ts.map (startEntry strings)).forM (addDefinition h strings.encode)).Makes m ()
      (ts.foldl Module.placeStart m) := by
  induction ts generalizing m with
  | nil => exact makes_forM_nil.mpr rfl
  | cons t ts ih =>
    obtain ⟨ht, hts⟩ := List.forall_mem_cons.mp ht
    obtain ⟨hn, hns⟩ := List.forall_mem_cons.mp hn
    have hopen : (m.placeStart t).finalized = false := by
      have hkeeps := m.placeStarts_eq [t]
      exact (congrArg Module.finalized hkeeps).trans hm
    exact makes_forM_cons.mpr ⟨_, makes_startEntry hx hlt ht hn hm, ih hts hns hopen⟩

end Starts

section Symbols

variable {h : Header} {strings : StringTable} {i : UInt16} {s : Symbol}

/-- What is left of an exported symbol in an executable file. -/
def loaded (s : Symbol) : Symbol :=
  ⟨s.name, s.type, s.binding,
    s.address.map fun a => .absolute (Int64.ofNat (Isa.lowWord a.value).toNat), false, .none⟩

theorem entryAddress_of_absolute {e : SymbolEntry} (hd : e.isDefined) (hid : e.sectionId = 0) :
    entryAddress h e = .ok (some (.absolute (absoluteValue h e.value))) := by
  rw [entryAddress, if_neg (by simp [hd]), if_pos hid]

theorem readSymbol_indexedEntry (hx : h.isExecutable) {v : Int64}
    (hs : s.address = some (.absolute v)) (ht : s.type.isAssigned) (hb : s.binding.isAssigned)
    (hn : s.name ∈ strings.names) (hz : s.name.ZeroFree) (hlt : strings.encode.length < 2 ^ 32) :
    readSymbol h strings.encode (indexedEntry strings i s) = .ok (loaded s) := by
  obtain ⟨-, htype, hbinding⟩ := proper_definitionEntry strings ht hb
  have hindex : (definitionEntry strings s).nameIndex = strings.index s.name := by
    rw [definitionEntry, hs]
  have hvalue : (definitionEntry strings s).value = Isa.lowWord v := by
    rw [definitionEntry, hs]
    rfl
  have hdefined : (definitionEntry strings s).isDefined := by
    rw [isDefined_definitionEntry, Symbol.isDefined, hs]
    rfl
  have hid : (definitionEntry strings s).sectionId = 0 :=
    (sectionId_definitionEntry strings hs).trans idOf_empty
  have haddress : entryAddress h (indexedEntry strings i s) = .ok (loaded s).address := by
    have habsolute := entryAddress_of_absolute (h := h) (e := indexedEntry strings i s) hdefined hid
    rw [habsolute, absoluteValue, if_pos hx, loaded, hs]
    change Except.ok (some (Address.absolute
      (Int64.ofNat (definitionEntry strings s).value.toNat))) = _
    rw [hvalue]
    rfl
  refine readSymbol_eq_ok.mpr ⟨s.name, (loaded s).address, ?_, haddress, ?_⟩
  · change stringAt strings.encode (definitionEntry strings s).nameIndex = _
    rw [hindex]
    exact StringTable.stringAt_index hn hz hlt
  · change loaded s = ⟨s.name, .ofCode (definitionEntry strings s).kind,
      .ofCode (definitionEntry strings s).binding, (loaded s).address, false, .none⟩
    rw [htype, hbinding]
    rfl

end Symbols

end ObjectFile

namespace Program

def loadedModule (p : Program) (n : String) : Module :=
  let placed := p.image.sections.foldl Module.placeStart
    { name := n, order := p.image.order, sections := p.image.storedSections.map (storedSection p.image) }
  { placed with symbols := p.image.symbols.map loaded, finalized := true }

variable {p : Program} {n : String}

theorem FitsFile.offset_lt (h : p.FitsFile) (n : Name) : p.image.offset n < 2 ^ 32 :=
  p.image.offset_lt (by decide) h.sections n

theorem readParts_program (hfit : p.FitsFile) :
    readParts p.fileHeader (contents p.image ++ p.tables.encode) =
      .ok ⟨p.image.storedSections.map p.image.fileSection, [], [], p.tables.definitions,
        p.strings.encode⟩ := by
  have hcount : p.tables.definitions.length < 2 ^ 32 := by
    simpa [tables] using hfit.definitions
  exact readParts_encode rfl (fun s _ => hfit.offset_lt s.name) rfl rfl (toNat_toUInt32 hcount)
    (toNat_toUInt32 hfit.strings)

theorem unmarshal_program (hs : ∀ t ∈ p.image.sections, t.name ∈ StandardSection.names)
    (hfit : p.FitsFile) (hnames : (p.image.symbols.map Symbol.name).Nodup)
    (habsolute : ∀ s ∈ p.image.symbols, ∃ v, s.address = some (.absolute v))
    (hz : ∀ s ∈ p.image.symbols, s.name.ZeroFree)
    (ha : ∀ s ∈ p.image.symbols, s.type.isAssigned ∧ s.binding.isAssigned) :
    unmarshal n (assemble p.image p.tables executableFlag p.entry) =
      .ok (.ok ⟨p.fileHeader, p.loadedModule n, p.tables.definitions⟩) := by
  obtain ⟨horder, hx⟩ := order_fileHeader p
  -- The module after the sections, and then after the entries that give them their addresses.
  let empty : Module := { name := n, order := p.image.order }
  let filled : Module := { empty with sections := p.image.storedSections.map (storedSection p.image) }
  let placed : Module := p.image.sections.foldl Module.placeStart filled
  have hplaced : placed = { filled with sections := placed.sections } :=
    Module.placeStarts_eq p.image.sections
  have hnone : placed.symbols = [] := congrArg Module.symbols hplaced
  have hopen : placed.finalized = false := congrArg Module.finalized hplaced
  have hheader : readHeader (assemble p.image p.tables executableFlag p.entry) =
      .ok (p.fileHeader, contents p.image ++ p.tables.encode) := by
    rw [assemble_eq]
    exact Header.readHeader_encode rfl rfl rfl _
  have hnodup : p.image.storedSections.Nodup := .filter _ (by decide)
  have hsections := makes_addSections (m := p.image) (M := empty) hnodup rfl fun _ _ => rfl
  have hstarts := makes_startEntries (m := filled) hx hfit.strings hs
    (fun t ht => mem_strings_of_section ht) rfl
  have hread : ∀ s ∈ p.image.symbols, readSymbol p.fileHeader p.strings.encode
      (indexedEntry p.strings (marshalProgram.index p s) s) = .ok (loaded s) ∧
        (loaded s).name = s.name := fun s hmem => by
    obtain ⟨v, hv⟩ := habsolute s hmem
    exact ⟨readSymbol_indexedEntry hx hv (ha s hmem).1 (ha s hmem).2 (mem_strings_of_symbol hmem)
      (hz s hmem) hfit.strings, rfl⟩
  have hproper : ∀ s ∈ p.image.symbols,
      (indexedEntry p.strings (marshalProgram.index p s) s).Proper := fun s hmem =>
    (proper_definitionEntry p.strings (ha s hmem).1 (ha s hmem).2).1
  have hfresh : ∀ s ∈ p.image.symbols, placed.symbol? s.name = none := fun s _ => by
    rw [Module.symbol?, hnone]
    rfl
  have hsymbols := (makes_addDefinitions hread hopen fun s hmem _ => (hproper s hmem).1).mpr
    ⟨hproper, hnames, hfresh, rfl⟩
  rw [hnone, List.nil_append] at hsymbols
  refine unmarshal_eq_ok.mpr ⟨_, _, _, { p.loadedModule n with finalized := false }, hheader,
    readParts_program hfit, ?_, rfl⟩
  rw [horder]
  refine makes_bind.mpr ⟨(), filled, hsections, makes_bind.mpr ⟨(), _,
    makes_forM_append.mpr ⟨placed, hstarts, hsymbols⟩, makes_bind.mpr ⟨(), _,
      makes_forM_nil.mpr rfl, makes_forM_nil.mpr ?_⟩⟩⟩
  exact congrArg (fun b => { placed with symbols := p.image.symbols.map loaded, finalized := b }) hopen

section Loaded

variable {t : Section} (hs : ∀ t ∈ p.image.sections, t.name ∈ StandardSection.names)
  (hfit : p.FitsFile) (hd : p.image.DistinctSections) (ht : t ∈ p.image.sections)

include hs hfit hd ht

theorem section?_loadedModule : ∃ u, (p.loadedModule n).section? t.name = some u ∧
    u.virtualAddress = t.virtualAddress.toUInt32.toUInt64 ∧
    u.contents = if t.name ∈ ([".sbss", ".bss"] : List Name) then List.replicate t.length 0
      else t.contents := by
  let filled : Module :=
    { name := n, order := p.image.order, sections := p.image.storedSections.map (storedSection p.image) }
  have hfind : p.image.section? t.name = some t := Module.find?_of_nodup Section.name hd ht
  have hplaced : (p.loadedModule n).section? t.name =
      some (((filled.section? t.name).getD (.fresh t.name)).placedAs t) := by
    have hrun := Module.section?_placeStarts (m := filled) hd t.name
    rw [Module.section?] at hfind
    rw [hfind] at hrun
    exact hrun
  have hcontents : (((filled.section? t.name).getD (.fresh t.name)).placedAs t).contents =
      filled.contentsOf t.name := by
    rw [Module.contentsOf]
    cases filled.section? t.name <;> rfl
  refine ⟨_, hplaced, rfl, ?_⟩
  obtain ⟨k, hk⟩ := exists_standard (hs t ht)
  have hstored := contentsOf_stored_name (n := n) (hfit.offset_lt k.name)
  have hnobits : (k.flags.nobits = true) = (k.name ∈ ([".sbss", ".bss"] : List Name)) := by
    cases k <;> decide
  rw [hk, Module.offset_of_section? hfind, Module.contentsOf_eq hfind] at hstored
  simp only [hnobits, hk] at hstored
  exact hcontents.trans hstored

end Loaded

theorem plain_definitions (hs : ∀ t ∈ p.image.sections, t.name ∈ StandardSection.names)
    (ha : ∀ s ∈ p.image.symbols, s.type.isAssigned ∧ s.binding.isAssigned) :
    (p.tables.definitions.filter fun e => !e.isSectionStart) =
      p.image.symbols.map fun s => indexedEntry p.strings (marshalProgram.index p s) s := by
  have hstarts : ((p.image.sections.map (startEntry p.strings)).filter fun e =>
      !e.isSectionStart) = [] := List.filter_eq_nil_iff.mpr fun e he => by
    obtain ⟨t, ht, rfl⟩ := List.mem_map.mp he
    simp [(fields_startEntry p.strings (hs t ht)).1]
  have hplain : ((p.image.symbols.map fun s => indexedEntry p.strings (marshalProgram.index p s) s).filter
      fun e => !e.isSectionStart) = _ := List.filter_eq_self.mpr fun e he => by
    obtain ⟨s, hmem, rfl⟩ := List.mem_map.mp he
    have hplain : (indexedEntry p.strings (marshalProgram.index p s) s).isSectionStart = false :=
      (proper_definitionEntry p.strings (ha s hmem).1 (ha s hmem).2).1.1
    rw [hplain]
    rfl
  rw [tables, List.filter_append, hstarts, hplain, List.nil_append]

theorem strings_assemble (hfit : p.FitsFile) :
    let data := assemble p.image p.tables executableFlag p.entry
    data.drop (data.length - p.fileHeader.strings.toNat) = p.strings.encode := by
  have hlen : p.fileHeader.strings.toNat = p.strings.encode.length := toNat_toUInt32 hfit.strings
  intro data
  have hdata : ∃ front, data = front ++ p.strings.encode := by
    refine ⟨p.fileHeader.encode ++ contents p.image ++ ([] ++ [] ++
      p.tables.definitions.flatMap (·.encode)), ?_⟩
    rw [List.append_assoc]
    rfl
  obtain ⟨front, hfront⟩ := hdata
  rw [hlen, hfront, List.length_append, Nat.add_sub_cancel]
  exact List.drop_left

/-- Whether a file says about the sections and the exported symbols of a program what is true of
them, as far as numbers of 32 bits can. -/
structure ReadAs (p : Program) (data : List UInt8) (f : File) : Prop where
  executable : f.isExecutable
  entry : f.header.entry = p.entry
  references : f.module.references = []
  sections : ∀ t ∈ p.image.sections, ∃ u, f.module.section? t.name = some u ∧
    u.virtualAddress = t.virtualAddress.toUInt32.toUInt64 ∧
    u.contents = if t.name ∈ ([".sbss", ".bss"] : List Name) then List.replicate t.length 0
      else t.contents
  symbols : f.module.symbols.map (fun s => (s.name, s.type, s.binding, s.address)) =
    p.globals.sorted.map fun g => (g.name, g.symbol.type, g.symbol.binding,
      some (.absolute (Int64.ofNat (Isa.lowWord g.address).toNat)))
  definitions : List.Forall₂ (fun e g =>
      stringAt (data.drop (data.length - f.header.strings.toNat)) e.nameIndex = .ok g.name ∧
        e.value = Isa.lowWord g.address ∧ e.objectIndex = g.module.toUInt16)
    (f.definitions.filter fun e => !e.isSectionStart) p.globals.sorted

end Program

namespace Globals

/-- Whether a table has the exported symbols of modules, in the order of their names. -/
structure Lists (gs : Globals) (l : Layout) (ms : List Module) : Prop where
  ordered : (gs.sorted.map Global.name).Pairwise fun a b => a.bytes < b.bytes
  sourced : ∀ g ∈ gs.sorted, ∃ m a, ms[g.module]? = some m ∧ g.symbol ∈ m.symbols ∧
    g.symbol.isExported ∧ g.symbol.address = some a ∧ l.resolve g.module a = .ok g.address
  complete : ∀ m ∈ ms, ∀ t ∈ m.symbols, t.isExported → t.isDefined →
    ∃ g ∈ gs.sorted, g.name = t.name

theorem lists_ofModules {l : Layout} {ms : List Module} {gs : Reported Globals}
    (h : ofModules l ms = .ok gs) : gs.value.Lists l ms where
  ordered := (distinct_ofModules l ms gs h).pairwise_sorted
  sourced g hg := sourced_ofModules l ms gs h g (mem_sorted.mp hg)
  complete m hm t ht hx ha := by
    obtain ⟨g, hg⟩ := Option.isSome_iff_exists.mp (ofModules_present hm ht hx ha gs h)
    exact ⟨g, mem_sorted.mpr (List.mem_of_find?_eq_some hg), by simpa using List.find?_some hg⟩

end Globals

namespace ObjectFile

variable {s : Settings} {ms : List Module} {p : Program}

theorem globals_of_link (h : (link s ms).Gives (some p)) : p.globals.Distinct ∧
    p.globals.Lists (Layout.ofModules s.link ms) ms ∧
    p.image.symbols = p.globals.sorted.map Global.exported ∧ p.image.DistinctSections := by
  obtain ⟨ds, h⟩ := h
  obtain ⟨gs, out, hl⟩ := linking_of_link h rfl
  have hd := Globals.distinct_ofModules _ _ _ hl.globals
  rw [hl.table]
  exact ⟨hd, Globals.lists_ofModules hl.globals, Layout.symbols_image hl.image hd⟩

/-- An executable file says all that matters of a program to be loaded. -/
theorem unmarshal_marshalProgram (h : (link s ms).Gives (some p))
    (hs : ∀ t ∈ p.image.sections, t.name ∈ StandardSection.names) (hfit : p.FitsFile)
    (hz : ∀ g ∈ p.globals.entries, g.name.ZeroFree)
    (ha : ∀ g ∈ p.globals.entries, g.symbol.type.isAssigned ∧ g.symbol.binding.isAssigned) :
    p.globals.Lists (Layout.ofModules s.link ms) ms ∧ ∃ data, marshalProgram p = .ok data ∧
      ∀ n, ∃ f, unmarshal n data = .ok (.ok f) ∧ p.ReadAs data f := by
  obtain ⟨hd, hlists, hsymbols, hsections⟩ := globals_of_link h
  -- Exported symbols are the entries of the table, so what holds of entries holds of symbols.
  have hexported : ∀ {P : Symbol → Prop}, (∀ g ∈ p.globals.entries, P g.exported) →
      ∀ t ∈ p.image.symbols, P t := fun hP t ht => by
    rw [hsymbols] at ht
    obtain ⟨g, hg, rfl⟩ := List.mem_map.mp ht
    exact hP g (Globals.mem_sorted.mp hg)
  have habsolute := hexported (P := fun t => ∃ v, t.address = some (.absolute v)) fun g _ => ⟨_, rfl⟩
  have hzero := hexported (P := fun t => t.name.ZeroFree) hz
  have hassigned := hexported (P := fun t => t.type.isAssigned ∧ t.binding.isAssigned) ha
  have hnames : (p.image.symbols.map Symbol.name).Nodup := by
    rw [hsymbols, List.map_map]
    exact hd.nodup_sorted
  have hrepresentable : ∀ t ∈ p.image.symbols, Representable t := by
    intro t ht a hta hrel
    obtain ⟨v, hv⟩ := habsolute t ht
    cases hta.symm.trans hv
    cases hrel
  refine ⟨hlists, _, Program.marshalProgram_eq_ok.mpr ⟨hs, hrepresentable, rfl⟩, fun n => ⟨_,
    Program.unmarshal_program hs hfit hnames habsolute hzero hassigned, ?_⟩⟩
  refine ⟨(Program.order_fileHeader p).2, rfl, ?_, fun t ht =>
    Program.section?_loadedModule hs hfit hsections ht, ?_, ?_⟩
  · exact congrArg Module.references (Module.placeStarts_eq p.image.sections)
  · change (p.image.symbols.map loaded).map _ = _
    rw [hsymbols, List.map_map, List.map_map]
    rfl
  · rw [Program.strings_assemble hfit, Program.plain_definitions hs hassigned, hsymbols, List.map_map,
      List.forall₂_map_left_iff]
    refine List.forall₂_same.mpr fun g hg => ⟨?_, rfl, ?_⟩
    · have hmem : g.exported ∈ p.image.symbols := hsymbols ▸ List.mem_map_of_mem hg
      exact StringTable.stringAt_index (Program.mem_strings_of_symbol hmem)
        (hzero _ hmem) hfit.strings
    · change (((p.globals.get? g.name).map Global.module).getD 0).toUInt16 = _
      rw [hd.get?_of_mem (Globals.mem_sorted.mp hg)]
      rfl

def jumpingModule : Module where
  name := "jump.o"
  order := .big
  sections :=
    [⟨".text", StandardSection.text.flags, 0, 2, [0x0c, 0, 0, 0, 0, 0, 0, 0].toByteArray⟩,
      ⟨".bss", StandardSection.bss.flags, 0, 2, zeroBytes 4⟩]
  symbols := [⟨"main", .unknown, .internal, none, true, .none⟩]
  references := [⟨.relative ".text" 0, "main", .jump26, 0⟩]
  finalized := true

def mainModule : Module where
  name := "main.o"
  order := .big
  sections := [⟨".text", StandardSection.text.flags, 0, 2, [0x03, 0xe0, 0, 8].toByteArray⟩]
  symbols := [⟨"main", .label, .weak, some (.relative ".text" 0), false, .none⟩]
  finalized := true

theorem unmarshal_marshalProgram_mainModule : ∃ p data f,
    (link {} [jumpingModule, mainModule]).Gives (some p) ∧ marshalProgram p = .ok data ∧
    unmarshal "a.out" data = .ok (.ok f) ∧ f.isExecutable ∧ f.header.entry = 0x400008 ∧
    f.module.symbols.map Symbol.address = [some (.absolute 0x400008)] ∧
    (f.definitions.filter fun e => !e.isSectionStart).map (·.objectIndex) = [1] ∧
    ∃ u, f.module.section? ".bss" = some u ∧ u.contents = [0, 0, 0, 0] := by
  have hlink : (programOf {} [jumpingModule, mainModule]).any fun p =>
      decide (∀ t ∈ p.image.sections, t.name ∈ StandardSection.names) && decide p.FitsFile &&
        p.entry == 0x400008 && decide (p.globals.sorted = [
          ⟨⟨"main", .label, .weak, some (.relative ".text" 0), false, .none⟩, 0x400008, 1⟩]) &&
        decide (∃ t ∈ p.image.sections, t.name = (".bss" : Name) ∧ t.length = 4) := by
    decide +kernel
  obtain ⟨p, hp, hx⟩ := (Option.any_eq_true _ _).mp hlink
  simp only [Bool.and_eq_true, decide_eq_true_eq, beq_iff_eq] at hx
  obtain ⟨⟨⟨⟨hs, hfit⟩, hentry⟩, hsorted⟩, t, ht, hname, hlen⟩ := hx
  have hgives := gives_of_programOf hp
  have hentries : ∀ g ∈ p.globals.entries, g.name.ZeroFree ∧ g.symbol.type.isAssigned ∧
      g.symbol.binding.isAssigned := by
    intro g hg
    rw [← Globals.mem_sorted, hsorted] at hg
    revert g
    decide
  obtain ⟨-, data, hdata, hread⟩ := unmarshal_marshalProgram hgives hs hfit
    (fun g hg => (hentries g hg).1) fun g hg => (hentries g hg).2
  obtain ⟨f, hf, hprogram⟩ := hread "a.out"
  have haddresses : f.module.symbols.map Symbol.address = p.globals.sorted.map fun g =>
      some (.absolute (Int64.ofNat (Isa.lowWord g.address).toNat)) := by
    simpa [Function.comp_def] using congrArg (List.map fun x => x.2.2.2) hprogram.symbols
  have hindices : (f.definitions.filter fun e => !e.isSectionStart).map (·.objectIndex) =
      p.globals.sorted.map fun g => g.module.toUInt16 := by
    rw [← List.forall₂_eq_eq_eq, List.forall₂_map_left_iff, List.forall₂_map_right_iff]
    exact hprogram.definitions.imp fun _ _ h => h.2.2
  rw [hsorted] at haddresses hindices
  obtain ⟨u, hu, -, hcontents⟩ := hprogram.sections t ht
  rw [hname] at hu hcontents
  rw [hlen, if_pos (by decide)] at hcontents
  exact ⟨p, data, f, hgives, hdata, hf, hprogram.executable, hprogram.entry.trans hentry,
    haddresses.trans (by decide), hindices.trans (by decide), u, hu, hcontents⟩

def oddExporter : Module where
  name := "m.o"
  order := .big
  symbols := [⟨"x", .unassigned 3, .global, some (.absolute 0), false, .none⟩]
  finalized := true

/-- The type of a symbol matters for that too. -/
theorem unmarshal_marshalProgram_oddExporter : ∃ p data, (link {} [oddExporter]).Gives (some p) ∧
    (∀ t ∈ p.image.sections, t.name ∈ StandardSection.names) ∧ p.FitsFile ∧
    (∀ g ∈ p.globals.entries, g.name.ZeroFree) ∧ marshalProgram p = .ok data ∧
    unmarshal "a.out" data = .ok (.error (.invalidType "x" 3)) := by
  have hlink : (programOf {} [oddExporter]).any fun p =>
      decide (∀ t ∈ p.image.sections, t.name ∈ StandardSection.names) && decide p.FitsFile &&
        decide (∀ g ∈ p.globals.entries, g.name.ZeroFree) &&
        (marshalProgram p).toOption.any fun data =>
          decide (unmarshal "a.out" data = .ok (.error (.invalidType "x" 3))) := by
    decide +kernel
  obtain ⟨p, hp, hx⟩ := (Option.any_eq_true _ _).mp hlink
  simp only [Bool.and_eq_true, decide_eq_true_eq] at hx
  obtain ⟨⟨⟨hs, hfit⟩, hz⟩, hx⟩ := hx
  obtain ⟨data, hdata, hx⟩ := (Option.any_eq_true _ _).mp hx
  rw [except_toOption_eq_some] at hdata
  exact ⟨p, data, gives_of_programOf hp, hs, hfit, hz, hdata, of_decide_eq_true hx⟩

end ObjectFile

end MipsToolchain
