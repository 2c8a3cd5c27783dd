import MipsToolchain.Proofs.ObjectFile.RoundTrip

namespace MipsToolchain.ObjectFile

open Build

section Keeping

variable {h : Header} {M M' : Module}

-- Nothing else of a module changes while references are added to it.
theorem keeps_forM {α : Type} {f : α → Build Unit} {es : List α}
    (hf : ∀ e ∈ es, ∀ rs M₁, (f e).Makes { M with references := rs } () M₁ →
      ∃ rs', M₁ = { M with references := rs' }) {rs : List Reference}
    (hrun : (es.forM f).Makes { M with references := rs } () M') :
    ∃ rs', M' = { M with references := rs' } := by
  induction es generalizing rs with
  | nil => exact ⟨rs, (makes_forM_nil.mp hrun).symm⟩
  | cons e es ih =>
    obtain ⟨hfirst, hrest⟩ := List.forall_mem_cons.mp hf
    obtain ⟨M₁, hrun₁, hrun⟩ := makes_forM_cons.mp hrun
    obtain ⟨rs₁, rfl⟩ := hfirst rs M₁ hrun₁
    exact ih hrest hrun

theorem standard_of_nameOfId {id : UInt8} {n : Name} (hn : nameOfId id = .ok n) :
    n ∈ StandardSection.names := by
  unfold nameOfId at hn
  split at hn
  · cases hn
    exact List.mem_map_of_mem (StandardSection.mem_all _)
  · cases hn

variable (hM : M.finalized = false) (hx : h.isExecutable = false)

include hM hx

theorem keeps_addRelocation {e : RelocationEntry} (hrun : (addRelocation h e).Makes M () M') :
    ∃ rs, M' = { M with references := rs } := by
  obtain ⟨_, _, hlocation, hrun⟩ := makes_bind.mp hrun
  obtain ⟨-, rfl⟩ := makes_check.mp hlocation
  obtain ⟨_, _, htarget, hrun⟩ := makes_bind.mp hrun
  obtain ⟨hn, rfl⟩ := makes_check.mp htarget
  have hknown := isSectionName_of_standard (m := M) (standard_of_nameOfId hn)
  obtain ⟨-, -, hM'⟩ := (makes_addReference hM hx (.inl hknown)).mp hrun
  exact ⟨_, hM'⟩

theorem keeps_addNamedReference {strings : List UInt8} {e : SymbolEntry} {n : Name}
    (hn : stringAt strings e.nameIndex = .ok n) (hknown : n ∈ M.symbolNames)
    (hrun : (addNamedReference h strings e).Makes M () M') :
    ∃ rs, M' = { M with references := rs } := by
  obtain ⟨_, _, hname, hrun⟩ := makes_bind.mp hrun
  obtain ⟨hn', rfl⟩ := makes_check.mp hname
  obtain ⟨_, _, hlocation, hrun⟩ := makes_bind.mp hrun
  obtain ⟨-, rfl⟩ := makes_check.mp hlocation
  cases hn.symm.trans hn'
  obtain ⟨-, -, hM'⟩ := (makes_addReference hM hx (.inr hknown)).mp hrun
  exact ⟨_, hM'⟩

end Keeping

section Reading

variable {m : Module} {n : String} {f : File} (hm : m.WellFormed) (hs : m.UsesStandardSections)
  (hz : ∀ s ∈ m.symbols, s.name.ZeroFree)
  (hread : unmarshal n (assemble m m.tables 0 0) = .ok (.ok f))

include hm hs hz hread

theorem symbols_of_unmarshal : f.module.symbols = m.symbols.map (readBack m.strings) := by
  obtain ⟨hfits, M', hparts, rfl⟩ := unmarshal_assemble.mp hread
  obtain ⟨-, hrun⟩ := (makes_addParts hm hs hfits hz).mp hparts
  obtain ⟨_, M₁, hrelocations, hreferences⟩ := makes_bind.mp hrun
  have hx := (order_fileHeader m).2
  have hfirst : ∀ e ∈ m.fileParts.relocations, ∀ rs M₂, (addRelocation m.fileHeader e).Makes
        { definedModule m n with references := rs } () M₂ →
      ∃ rs', M₂ = { definedModule m n with references := rs' } := by
    intro e _ rs M₂ hstep
    exact keeps_addRelocation (M := { definedModule m n with references := rs }) rfl hx hstep
  obtain ⟨rs, rfl⟩ := keeps_forM (M := definedModule m n) hfirst hrelocations
  have hsecond : ∀ e ∈ m.fileParts.references, ∀ rs M₂,
      (addNamedReference m.fileHeader m.fileParts.strings e).Makes
        { definedModule m n with references := rs } () M₂ →
      ∃ rs', M₂ = { definedModule m n with references := rs' } := by
    intro e he rs M₂ hstep
    obtain ⟨r, hr, rfl⟩ := List.mem_map.mp he
    have hname := StringTable.stringAt_index (mem_strings_of_reference hr)
      (zeroFree_of_namedReference hm hz hr) hfits.strings
    refine keeps_addNamedReference (M := { definedModule m n with references := rs }) rfl hx
      hname ?_ hstep
    simpa [Module.symbolNames, definedModule, readBack] using symbol_of_namedReference hm hr
  obtain ⟨rs', rfl⟩ := keeps_forM (M := definedModule m n) hsecond hreferences
  rfl

theorem symbol?_of_unmarshal {s : Symbol} (hmem : s ∈ m.symbols) :
    f.module.symbol? s.name = some (readBack m.strings s) := by
  have hnames : ((m.symbols.map (readBack m.strings)).map Symbol.name).Nodup := by
    have hsame : (m.symbols.map (readBack m.strings)).map Symbol.name = m.symbolNames := by
      simp [Module.symbolNames, readBack]
    exact hsame ▸ hm.distinct
  rw [Module.symbol?, symbols_of_unmarshal hm hs hz hread]
  exact Module.find?_of_nodup Symbol.name hnames (List.mem_map_of_mem hmem)

end Reading

/-- What happens to the addresses of symbols in an object file: offsets of sections lose their sign,
while absolute numbers keep it. -/
theorem address_unmarshal_marshal {m : Module} {data : List UInt8} (hb : m.Built)
    (hdata : marshal m = .ok data) (hz : ∀ s ∈ m.symbols, s.name.ZeroFree) (n : String) :
    (m.FitsFile → (∀ s ∈ m.symbols, s.type.isAssigned ∧ s.binding.isAssigned) →
      (∀ r ∈ m.references, m.InBounds r.location ∧ r.kind.isAssigned) →
      ∃ f, unmarshal n data = .ok (.ok f)) ∧
    ∀ f, unmarshal n data = .ok (.ok f) → ∀ s ∈ m.symbols, ∀ a, s.address = some a →
      ∃ t, f.module.symbol? s.name = some t ∧ t.address = some a.stored ∧
        (a.stored = a ↔ if a.isRelocatable then 0 ≤ a.value.toInt ∧ a.value.toInt < 2 ^ 32
          else -2 ^ 31 ≤ a.value.toInt ∧ a.value.toInt < 2 ^ 31) := by
  obtain ⟨-, -, hs, rfl⟩ := marshal_eq_ok.mp hdata
  constructor
  · intro hfit ha hr
    exact ⟨_, unmarshal_stored hb.wellFormed hs hfit hz ha hr⟩
  · intro f hread s hmem a ha
    refine ⟨_, symbol?_of_unmarshal hb.wellFormed hs hz hread hmem, ?_, Address.stored_eq_iff⟩
    rw [readBack, ha, Option.map_some]

def macroModule : Module where
  name := "a.o"
  order := .big
  sections := [⟨".text", StandardSection.text.flags, 0, 0, zeroBytes 4⟩]
  symbols :=
    [⟨"main", .label, .global, some (.relative ".text" 0), false, .none⟩,
      ⟨"X", .constant, .global, some (.relative ".text" (-8)), false, .none⟩,
      ⟨"Y", .constant, .internal, some (.absolute (-8)), false, .none⟩]
  finalized := true

theorem built_macroModule : macroModule.Built := by
  have hnew := Module.Built.new "a.o" .big
  have htext := hnew.reserve ".text" 4 rfl
  have hmain := htext.define "main" .label (.relative ".text" 0) .none rfl
  have hglobal := hmain.declare "main" .global rfl
  have hconstant := hglobal.define "X" .constant (.relative ".text" (-8)) .none rfl
  have hshared := hconstant.declare "X" .global rfl
  have hnumber := hshared.define "Y" .constant (.absolute (-8)) .none rfl
  exact hnumber.finalize

theorem address_unmarshal_marshal_macroModule : ∃ data f, marshal macroModule = .ok data ∧
    unmarshal "a.o" data = .ok (.ok f) ∧
    (∃ t, f.module.symbol? "main" = some t ∧ t.address = some (.relative ".text" 0)) ∧
    (∃ t, f.module.symbol? "X" = some t ∧ t.address = some (.relative ".text" 4294967288) ∧
      t.address ≠ some (.relative ".text" (-8))) ∧
    ∃ t, f.module.symbol? "Y" = some t ∧ t.address = some (.absolute (-8)) := by
  have hs : macroModule.UsesStandardSections := ⟨by decide, by decide, by decide⟩
  have hfit : macroModule.FitsFile :=
    ⟨by decide, by decide, by decide, by decide, by decide⟩
  obtain ⟨hsome, hall⟩ := address_unmarshal_marshal built_macroModule
    (marshal_eq_ok.mpr ⟨rfl, rfl, hs, rfl⟩) (by decide) "a.o"
  obtain ⟨f, hread⟩ := hsome hfit (by decide) (by simp [macroModule])
  obtain ⟨t, ht, hmain, -⟩ := hall f hread _ (.head _) _ rfl
  obtain ⟨u, hu, hconstant, -⟩ := hall f hread _ (.tail _ (.head _)) _ rfl
  obtain ⟨v, hv, hnumber, -⟩ := hall f hread _ (.tail _ (.tail _ (.head _))) _ rfl
  refine ⟨_, f, marshal_eq_ok.mpr ⟨rfl, rfl, hs, rfl⟩, hread, ⟨t, ht, hmain.trans (by decide)⟩,
    ⟨u, hu, hconstant.trans (by decide), ?_⟩, v, hv, hnumber.trans (by decide)⟩
  rw [hconstant]
  decide

end MipsToolchain.ObjectFile
