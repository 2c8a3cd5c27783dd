import MipsToolchain.Proofs.Assembly.Symbols
import MipsToolchain.Proofs.Assembly.Trace
import MipsToolchain.Proofs.Link.Splits
import MipsToolchain.Proofs.Link.Transfers
import MipsToolchain.Proofs.ObjectFile.RoundTrip
import Mathlib.Data.FinEnum

namespace MipsToolchain

open Diagnostic ObjectFile

namespace Module

def Assembled (m : Module) : Prop :=
  ∃ s f r, assembleFile s f = .ok r ∧ errorCount r.diagnostics = 0 ∧ r.value = m

/-- Whether an object file can hold all that linking takes from a module. -/
structure Portable (m : Module) : Prop where
  tidy : m.Tidy
  -- Of these sections a file has nothing but the length, which is a number of 32 bits.
  uninitialised : ∀ n ∈ ([".sbss", ".bss"] : List Name),
    (∀ b ∈ m.contentsOf n, b = 0) ∧ m.offset n < 2 ^ 32
  values : ∀ s ∈ m.symbols, ∀ a, s.address = some a →
    if a.isRelocatable then 0 ≤ a.value.toInt ∧ a.value.toInt < 2 ^ 32
      else -2 ^ 31 ≤ a.value.toInt ∧ a.value.toInt < 2 ^ 31

instance (m : Module) : Decidable m.Portable :=
  decidable_of_iff (m.Tidy ∧
      (∀ n ∈ ([".sbss", ".bss"] : List Name), (∀ b ∈ m.contentsOf n, b = 0) ∧ m.offset n < 2 ^ 32) ∧
      ∀ s ∈ m.symbols, ∀ a, s.address = some a →
        if a.isRelocatable then 0 ≤ a.value.toInt ∧ a.value.toInt < 2 ^ 32
          else -2 ^ 31 ≤ a.value.toInt ∧ a.value.toInt < 2 ^ 31)
    ⟨fun h => ⟨h.1, h.2.1, h.2.2⟩, fun h => ⟨h.tidy, h.uninitialised, h.values⟩⟩

def RestoredAs (m f : Module) : Prop :=
  ∃ n data file, marshal m = .ok data ∧ unmarshal n data = .ok (.ok file) ∧ file.module = f

section Assembled

variable {m : Module} (ha : m.Assembled)

include ha

theorem Assembled.sound : m.Built ∧ m.finalized ∧ m.failed = false ∧
    ∀ t ∈ m.symbols, t.SoundIn m := by
  obtain ⟨s, f, r, h, he, rfl⟩ := ha
  exact assembleLines_sound h he

theorem Assembled.listsReferences : ∃ ps, m.ListsReferences ps := by
  obtain ⟨s, f, r, h, -, rfl⟩ := ha
  exact listsReferences_assembleLines h

theorem Assembled.disjoint (hs : m.Sized) : m.references.Pairwise Reference.Disjoint := by
  obtain ⟨s, f, r, h, he, rfl⟩ := ha
  exact (assembleFile_spec h he).2.2 hs

theorem Assembled.inBounds (hs : m.Sized) :
    ∀ r ∈ m.references, m.InBounds r.location ∧ r.kind.isAssigned := by
  obtain ⟨ps, hps⟩ := ha.listsReferences
  intro r hr
  rw [← hps.references] at hr
  obtain ⟨⟨r, o⟩, hp, rfl⟩ := List.mem_map.mp hr
  have hrefers := hps.refers _ hp
  obtain ⟨t, ht, hle⟩ := hrefers.inside
  obtain ⟨w, -, hholds⟩ := hrefers.holds
  have ho : o < 0x8000000000000000 := by
    have hlt := hs r.location.sectionName
    rw [offset_of_section? ht] at hlt
    omega
  have hvalue : r.location.value.toInt = o := by
    rw [hrefers.location]
    exact Int64.toInt_ofNat_of_lt ho
  refine ⟨⟨t, ht, by dsimp only; omega, by dsimp only; omega⟩, ?_⟩
  unfold Reference.HoldsAddend at hholds
  cases hk : r.kind <;> simp_all [RelocationKind.isAssigned]

theorem Assembled.usesStandardSections (ht : m.Tidy) : m.UsesStandardSections where
  sections := ht.standard
  symbols t hmem a haddress hrel := by
    obtain ⟨-, -, -, hsymbols⟩ := ha.sound
    have hn := (hsymbols t hmem).placed a haddress hrel
    rw [isSectionName_eq_decide ht.standard] at hn
    exact of_decide_eq_true hn
  references r hr := by
    obtain ⟨ps, hps⟩ := ha.listsReferences
    rw [← hps.references] at hr
    obtain ⟨p, hp, rfl⟩ := List.mem_map.mp hr
    obtain ⟨t, hs, -⟩ := (hps.refers p hp).inside
    have hname : t.name = p.1.location.sectionName := by simpa using List.find?_some hs
    exact hname ▸ ht.standard t (List.mem_of_find?_eq_some hs)

theorem Assembled.ready (ht : m.Tidy) (hs : m.Sized) : m.Ready := by
  obtain ⟨-, hfinal, hok, -⟩ := ha.sound
  obtain ⟨ps, hps⟩ := ha.listsReferences
  exact ⟨ht, hfinal, hok, hps.splitsPaired.precedes (ha.disjoint hs)⟩

end Assembled

theorem FitsFile.sized {m : Module} (h : m.FitsFile) : m.Sized := fun n =>
  (h.offset_lt n).trans (by decide)

theorem offset_of_mem {m : Module} (h : m.DistinctSections) {t : Section} (ht : t ∈ m.sections) :
    m.offset t.name = t.length :=
  offset_of_section? (find?_of_nodup Section.name h ht)

theorem Fits.fitsFile {m : Module} (h : m.Fits) (hd : m.DistinctSections) (hp : m.Portable) :
    m.FitsFile where
  sections t ht := by
    obtain ⟨s, hs⟩ := exists_standard (hp.tidy.standard t ht)
    rw [← offset_of_mem hd ht, ← hs]
    cases s with
    | sbss => exact (hp.uninitialised ".sbss" (by decide)).2
    | bss => exact (hp.uninitialised ".bss" (by decide)).2
    | _ => exact h.contents _ rfl
  sectionReferences := by simpa [tables] using h.relocations
  namedReferences := by simpa [tables] using h.references
  symbols := by simpa [tables] using h.definitions
  strings := h.strings

section Stored

variable {m : Module} {n : String} (hp : m.Portable) (hfit : m.FitsFile)

include hfit

theorem tidy_stored : (m.stored n).Tidy where
  standard := standard_stored
  flags t ht := by
    obtain ⟨s, -, rfl⟩ := List.mem_map.mp ht
    exact (standardFlags_name s).symm
  alignment t ht := by
    obtain ⟨s, hs, rfl⟩ := List.mem_map.mp ht
    have hsize := of_decide_eq_true (List.mem_filter.mp hs).2
    rw [length_storedSection (hfit.offset_lt s.name),
      if_neg fun h => hsize ((fileSize_eq_zero_iff (hfit.offset_lt s.name)).mpr h)]
    rfl

include hp

theorem contentsOf_stored (k : Name) : (m.stored n).contentsOf k = m.contentsOf k := by
  by_cases hk : k ∈ StandardSection.names
  · obtain ⟨s, rfl⟩ := exists_standard hk
    rw [contentsOf_stored_name (hfit.offset_lt s.name)]
    split
    · next hnobits =>
      have hname : s.name ∈ ([".sbss", ".bss"] : List Name) := by
        cases s <;> first | decide | cases hnobits
      exact (List.eq_replicate_iff.mpr ⟨length_contentsOf m _, (hp.uninitialised _ hname).1⟩).symm
    · rfl
  · have hnone : m.section? k = none := by
      refine List.find?_eq_none.mpr fun t ht heq => hk ?_
      exact (of_decide_eq_true heq : t.name = k) ▸ hp.tidy.standard t ht
    have hnone' : (m.stored n).section? k = none := by
      refine List.find?_eq_none.mpr fun t ht heq => hk ?_
      exact (of_decide_eq_true heq : t.name = k) ▸ standard_stored t ht
    rw [contentsOf, contentsOf, hnone, hnone']

variable (ha : m.Assembled)

include ha

theorem references_stored : (m.stored n).references =
    (m.sectionReferences ++ m.namedReferences).map Reference.bare := by
  refine List.map_congr_left fun r hr => ?_
  have hmem := mem_references_of_split hr
  have hstandard := (ha.usesStandardSections hp.tidy).references r hmem
  rw [Reference.stored, stored_of_inBounds hfit (ha.inBounds hfit.sized r hmem).1 hstandard]
  rfl

theorem similar_stored : Similar m (m.stored n) where
  order := rfl
  symbols := by
    change (m.symbols.map Symbol.stored).map Symbol.bare = _
    rw [List.map_map]
    refine List.map_congr_left fun s hs => ?_
    have haddress : s.address.map Address.stored = s.address := by
      cases h : s.address with
      | none => rfl
      | some a => rw [Option.map_some, Address.stored_eq_iff.mpr (hp.values s hs a h)]
    rw [Function.comp_apply, Symbol.stored, haddress]
    rfl
  contents := contentsOf_stored hp hfit
  references r := by
    have hperm := List.filter_append_perm (fun r => m.isSectionName r.symbol) m.references
    rw [references_stored hp hfit ha, List.map_map]
    exact (hperm.map Reference.bare).mem_iff

theorem ready_stored : (m.stored n).Ready where
  tidy := tidy_stored hfit
  finalized := rfl
  intact := rfl
  precedes := by
    obtain ⟨ps, hps⟩ := ha.listsReferences
    have hperm := List.filter_append_perm (fun r => m.isSectionName r.symbol) m.references
    rw [references_stored hp hfit ha]
    refine SplitsPaired.precedes (.bare (.append ?_ ?_)) (List.pairwise_map.mpr ?_)
    · exact hps.splitsPaired.filter m.isSectionName
    · exact hps.splitsPaired.filter fun k => !m.isSectionName k
    · exact (hperm.pairwise_iff fun h => Reference.Disjoint.symm h).mpr (ha.disjoint hfit.sized)

end Stored

end Module

namespace ObjectFile

open MipsToolchain.Module

variable {ms fs : List Module}

theorem exists_marshal {m : Module} (ha : m.Assembled) (hp : m.Portable) :
    ∃ data, marshal m = .ok data ∧ ∀ n,
      (m.FitsFile → ∃ file, unmarshal n data = .ok (.ok file)) ∧
      ∀ file, unmarshal n data = .ok (.ok file) → m.FitsFile ∧ file.module = m.stored n := by
  obtain ⟨hbuilt, hfinal, hok, hsymbols⟩ := ha.sound
  have hs := ha.usesStandardSections hp.tidy
  have hread : ∀ n, m.FitsFile → unmarshal n (assemble m m.tables 0 0) =
      .ok (.ok ⟨m.fileHeader, m.stored n, m.tables.definitions⟩) := fun n hfit =>
    unmarshal_stored hbuilt.wellFormed hs hfit (fun t ht => (hsymbols t ht).name)
      (fun t ht => ⟨(hsymbols t ht).type, (hsymbols t ht).binding⟩) (ha.inBounds hfit.sized)
  refine ⟨_, marshal_eq_ok.mpr ⟨hfinal, hok, hs, rfl⟩, fun n => ⟨fun hfit => ⟨_, hread n hfit⟩,
    fun file hfile => ?_⟩⟩
  have hfit := (unmarshal_assemble.mp hfile).1.fitsFile hbuilt.distinctSections hp
  rw [hread n hfit] at hfile
  cases hfile
  exact ⟨hfit, rfl⟩

theorem similar_of_restoredAs {m f : Module} (ha : m.Assembled) (hp : m.Portable)
    (h : m.RestoredAs f) : m.Ready ∧ f.Ready ∧ m.Similar f := by
  obtain ⟨n, data, file, hdata, hfile, rfl⟩ := h
  obtain ⟨data', hdata', hread⟩ := exists_marshal ha hp
  cases hdata.symm.trans hdata'
  obtain ⟨hfit, heq⟩ := (hread n).2 file hfile
  rw [heq]
  exact ⟨ha.ready hp.tidy hfit.sized, ready_stored hp hfit ha, similar_stored hp hfit ha⟩

theorem similar_of_restored (h : List.Forall₂ RestoredAs ms fs) (ha : ∀ m ∈ ms, m.Assembled)
    (hp : ∀ m ∈ ms, m.Portable) :
    (∀ m ∈ ms, m.Ready) ∧ (∀ f ∈ fs, f.Ready) ∧ List.Forall₂ Similar ms fs := by
  induction h with
  | nil => exact ⟨by simp, by simp, .nil⟩
  | cons hm _ ih =>
    obtain ⟨ha, has⟩ := List.forall_mem_cons.mp ha
    obtain ⟨hp, hps⟩ := List.forall_mem_cons.mp hp
    obtain ⟨hleft, hright, hsimilar⟩ := similar_of_restoredAs ha hp hm
    obtain ⟨hlefts, hrights, hsimilars⟩ := ih has hps
    exact ⟨List.forall_mem_cons.mpr ⟨hleft, hlefts⟩, List.forall_mem_cons.mpr ⟨hright, hrights⟩,
      .cons hsimilar hsimilars⟩

/-- Linking cannot tell whether modules were in object files in between. -/
theorem link_unmarshal_marshal (s : Settings) (ha : ∀ m ∈ ms, m.Assembled)
    (hp : ∀ m ∈ ms, m.Portable) :
    (∀ m ∈ ms, ∃ data, marshal m = .ok data ∧
      (m.FitsFile → ∀ n, ∃ file, unmarshal n data = .ok (.ok file))) ∧
    ∀ fs, List.Forall₂ RestoredAs ms fs →
      ((∃ q, (link s fs).Gives (some q)) ↔ ∃ p, (link s ms).Gives (some p)) ∧
      ∀ p q, (link s ms).Gives (some p) → (link s fs).Gives (some q) → p.Agrees q := by
  constructor
  · intro m hm
    obtain ⟨data, hdata, hread⟩ := exists_marshal (ha m hm) (hp m hm)
    exact ⟨data, hdata, fun hfit n => (hread n).1 hfit⟩
  · intro fs hrestored
    obtain ⟨hms, hfs, hsimilar⟩ := similar_of_restored hrestored ha hp
    have hsymm : List.Forall₂ Similar fs ms := (hsimilar.imp fun _ _ h => h.symm).flip
    refine ⟨⟨fun ⟨q, hq⟩ => ?_, fun ⟨p, hpr⟩ => ?_⟩, fun p q hpr hq => ?_⟩
    · obtain ⟨p, hpr, -⟩ := link_similar hsymm hfs hms hq
      exact ⟨p, hpr⟩
    · obtain ⟨q, hq, -⟩ := link_similar hsimilar hms hfs hpr
      exact ⟨q, hq⟩
    · obtain ⟨q', hq', hagrees⟩ := link_similar hsimilar hms hfs hpr
      cases hq.unique hq'
      exact hagrees

def greeting : List Source.File :=
  [⟨"a.s", ["main: la $a0, msg", "jal print", "nop", ".data", "msg: .word msg+4"]⟩,
    ⟨"b.s", [".globl print", "print: jr $ra", "nop", ".bss", ".align 2", "out: .space 8"]⟩]

theorem link_unmarshal_marshal_greeting : ∃ ms fs p q, (∀ m ∈ ms, m.Assembled) ∧
    (∀ m ∈ ms, m.Portable) ∧ ms.map (·.references.map (·.kind)) =
      [[.high16, .low16, .jump26, .absolute32], []] ∧
    List.Forall₂ RestoredAs ms fs ∧ (link {} ms).Gives (some p) ∧ (link {} fs).Gives (some q) ∧
    p.Agrees q := by
  have hbuild : (build {} greeting).any fun x =>
      x.1.all (·.isSized) && decide (∀ m ∈ x.1, m.Portable) && decide (∀ m ∈ x.1, m.FitsFile) &&
        decide (x.1.map (·.references.map (·.kind)) =
          [[.high16, .low16, .jump26, .absolute32], []]) := by
    decide +kernel
  obtain ⟨⟨ms, p⟩, hb, hx⟩ := (Option.any_eq_true _ _).mp hbuild
  simp only [Bool.and_eq_true, decide_eq_true_eq] at hx
  obtain ⟨⟨⟨hsized, hportable⟩, hfits⟩, hkinds⟩ := hx
  have hlinked := linked_of_build hb hsized
  obtain ⟨ds, hfiles, he⟩ := hlinked.assembled
  obtain ⟨ds', hp⟩ := hlinked.linked
  have hassembled : ∀ m ∈ ms, m.Assembled := fun m hm => by
    obtain ⟨i, hi⟩ := List.mem_iff_getElem?.mp hm
    obtain ⟨f, a, -, hfile, hea, rfl⟩ := assembled_module hfiles he hi
    exact ⟨{}, f, a, hfile, hea, rfl⟩
  obtain ⟨hfile, hlink⟩ := link_unmarshal_marshal {} hassembled hportable
  -- Every module of the list has a file, which is read as some module.
  have hrestored : ∃ fs, List.Forall₂ RestoredAs ms fs := by
    clear hb hsized hkinds hlinked hfiles hp hassembled hlink hportable
    induction ms with
    | nil => exact ⟨[], .nil⟩
    | cons m ms ih =>
      obtain ⟨hm, hms⟩ := List.forall_mem_cons.mp hfile
      obtain ⟨hfit, hfits⟩ := List.forall_mem_cons.mp hfits
      obtain ⟨data, hdata, hread⟩ := hm
      obtain ⟨file, hfile⟩ := hread hfit "m.o"
      obtain ⟨fs, hfs⟩ := ih hfits hms
      exact ⟨file.module :: fs, .cons ⟨"m.o", data, file, hdata, hfile, rfl⟩ hfs⟩
  obtain ⟨fs, hfs⟩ := hrestored
  obtain ⟨hiff, hagrees⟩ := hlink fs hfs
  obtain ⟨q, hq⟩ := hiff.mpr ⟨p, ds', hp⟩
  exact ⟨ms, fs, p, q, hassembled, hportable, hkinds, hfs, ⟨ds', hp⟩, hq, hagrees p q ⟨ds', hp⟩ hq⟩

end ObjectFile

end MipsToolchain
