import MipsToolchain.Proofs.Link.Arrangement
import MipsToolchain.Proofs.Link.Phases
import MipsToolchain.Proofs.Link.Similarity
import MipsToolchain.Proofs.Link.Transfers

namespace MipsToolchain

open Diagnostic MipsToolchain.Module

namespace Layout

/-- What an image shows of modules that a layout has places for. -/
structure Shows (l : Layout) (ms : List Module) (img : Module) : Prop where
  sections : ∀ n, (img.section? n).isSome ↔ ∃ out ∈ l.sections, out.name = n
  addresses : ∀ out ∈ l.sections,
    (img.section? out.name).map Section.virtualAddress = some out.address.toUInt64
  sizes : ∀ out ∈ l.sections, img.offset out.name = out.size
  parts : ∀ out ∈ l.sections, ∀ (i : Nat) (m : Module) (start k : Nat), ms[i]? = some m →
    out.offsets[i]? = some start → k < m.offset out.name →
    img.byte? out.name (start + k) = m.byte? out.name k
  gaps : ∀ out ∈ l.sections, ∀ k < out.size,
    (∀ (i : Nat) (m : Module) (start : Nat), ms[i]? = some m → out.offsets[i]? = some start →
      ¬ (start ≤ k ∧ k < start + m.offset out.name)) → img.byte? out.name k = some 0

theorem length_partBytes (n : Name) (cursor : Nat) (ms : List Module) :
    cursor + (partBytes n cursor ms).length = (OutputSection.contributions n cursor ms).2 := by
  induction ms generalizing cursor with
  | nil => rfl
  | cons m ms ih =>
    rw [partBytes, OutputSection.contributions]
    cases hs : m.section? n with
    | none => exact ih cursor
    | some t =>
      have hle := le_alignUp cursor t.alignment
      have hrest := ih (alignUp cursor t.alignment + t.length)
      have hlen : t.contents.length = t.length := rfl
      dsimp only
      rw [← hrest, List.length_append, List.length_append, List.length_replicate, hlen]
      omega

section Image

variable {l : LinkSettings} {order : ByteOrder} {gs : Globals} {ms ms' : List Module} {img : Module}

theorem offset_image (h : (ofModules l ms).image order gs ms' = .ok img)
    (ha : List.Forall₂ Alike ms ms') {out : OutputSection}
    (hout : out ∈ (ofModules l ms).sections) : img.offset out.name = out.size := by
  have hn : out.name ∈ sectionNames ms := by
    rw [← names_ofModules l ms]
    exact List.mem_map_of_mem hout
  have hsize : out.size = (OutputSection.contributions out.name 0 ms').2 := by
    rw [contributions_congr ha, (mem_ofModules hout).2]
    rfl
  rw [← length_contentsOf, contents_image h ha hn, hsize, ← length_partBytes, Nat.zero_add]

theorem shows_image (h : (ofModules l ms).image order gs ms' = .ok img)
    (ha : List.Forall₂ Alike ms ms') : (ofModules l ms).Shows ms' img where
  sections n := by
    have hsame := congrArg Option.isSome (sections_image h ha n)
    rw [Option.isSome_map, Option.isSome_map] at hsame
    rw [hsame, Layout.section?, List.find?_isSome]
    simp
  addresses out hout := (image_spec h (arranges_ofModules l ms).distinct).2 out hout |>.1
  sizes out hout := offset_image h ha hout
  parts out hout i m start k hm hs hk := by
    rw [byte?_eq_contentsOf, byte?_eq_contentsOf]
    refine ((image_spec h (arranges_ofModules l ms).distinct).2 out hout).2 i m start hm hs k ?_
    rwa [length_contentsOf]
  gaps out hout k hk hgap := by
    have hn : out.name ∈ sectionNames ms := by
      rw [← names_ofModules l ms]
      exact List.mem_map_of_mem hout
    have hbyte := byte?_eq_contentsOf img out.name k
    rw [hbyte, contents_image h ha hn]
    have hlen : k < (partBytes out.name 0 ms').length := by
      rw [← contents_image h ha hn, length_contentsOf, offset_image h ha hout]
      exact hk
    rw [List.getElem?_eq_getElem hlen]
    -- A byte that is not zero would be in one of the parts.
    rcases getElem?_partBytes (List.getElem?_eq_getElem hlen) with hzero | hpart
    · rw [hzero]
    · obtain ⟨i, start, m, hm, hs, hle, hb⟩ := hpart
      rw [Nat.zero_add] at hle hb
      rw [contributions_congr ha, ← offsets_ofModules hout] at hs
      have hlt := (List.getElem?_eq_some_iff.mp hb).1
      rw [length_contentsOf] at hlt
      exact absurd ⟨hle, by omega⟩ (hgap i m start hm hs)

end Image

end Layout

namespace Diagnostic

def isOverlap (d : Diagnostic) : Bool := d.key = Problem.sectionOverlap.entry.key

theorem isOf_of_isOverlap {d : Diagnostic} (h : d.isOverlap) : d.IsOf .sectionOverlap := by
  simpa [isOverlap, IsOf] using h

theorem filter_promoteIf (strict : Bool) (ds : List Diagnostic) :
    (promoteIf strict ds).filter isOverlap = promoteIf strict (ds.filter isOverlap) := by
  unfold promoteIf
  split
  · rw [List.filter_map]
    rfl
  · rfl

theorem promoteIf_of_errors (strict : Bool) {ds : List Diagnostic}
    (h : ∀ d ∈ ds, d.severity = .error) : promoteIf strict ds = ds := by
  unfold promoteIf
  split
  · refine (List.map_congr_left fun d hd => ?_).trans (List.map_id _)
    have hsame : d.severity.promote = d.severity := by rw [h d hd]; rfl
    rw [promote, hsame]
    rfl
  · rfl

end Diagnostic

theorem checkModules_value {ms : List Module} (h : ∀ m ∈ ms, m.finalized) :
    (checkModules ms).value = true ↔ ∀ m ∈ ms, m.failed = false := by
  induction ms with
  | nil => simp [checkModules]
  | cons m ms ih =>
    obtain ⟨hm, hms⟩ := List.forall_mem_cons.mp h
    have hcheck : (checkModules.check m).value = !m.failed := by
      rw [checkModules.check, hm]
      cases m.failed <;> rfl
    rw [checkModules, Reported.value_bind, Reported.value_bind, Reported.value_pure,
      Bool.and_eq_true, ih hms, List.forall_mem_cons, hcheck, Bool.not_eq_true']

namespace Layout

/-- Whether a diagnostic reports two sections that share an address. -/
def Clash (l : Layout) (d : Diagnostic) : Prop :=
  ∃ s o, [s, o].Sublist l.sections ∧ (∃ a, s.Covers a ∧ o.Covers a) ∧ d = overlapReport s o

theorem overlap_of_clash {l : Layout} {d : Diagnostic} (h : l.Clash d) :
    d.isOverlap ∧ d.severity = .error := by
  obtain ⟨s, o, -, -, rfl⟩ := h
  exact ⟨rfl, rfl⟩

end Layout

section Link

variable {s : Settings} {ms : List Module}

theorem checkModules_isOf : ∀ d ∈ (checkModules ms).diagnostics,
    ∃ p ∈ [Problem.moduleFailed, .notFinalized], d.IsOf p := fun d hd => by
  simpa using checkModules_reports ms d hd

/-- Each phase of linking reports problems of its own, so a filter for the problems of one of them
passes over what the others report. -/
theorem linkage_phases {r : Reported (Option Linkage)} {k : Linkage} (h : linkage s ms = .ok r)
    (hk : r.value = some k) : ∃ gs out,
      Globals.ofModules (Layout.ofModules s.link ms) ms = .ok gs ∧
      linkModules (Layout.ofModules s.link ms) gs.value 0 ms = .ok out ∧ k.globals = gs.value ∧
      (∀ f : Diagnostic → Bool, (∀ d, f d → d.IsOf .sectionOverlap) → r.diagnostics.filter f =
        (Layout.checkOverlaps (Layout.ofModules s.link ms).sections).diagnostics.filter f) ∧
      (∀ f : Diagnostic → Bool, (∀ d, f d → d.IsOf .duplicateGlobal) →
        r.diagnostics.filter f = gs.diagnostics.filter f) ∧
      (∀ f : Diagnostic → Bool, (∀ d, f d → d.IsOf .unresolvedSymbol) →
        r.diagnostics.filter f = out.diagnostics.filter f) := by
  obtain ⟨gs, out, -, hgs, hout, rfl, hds⟩ := linkage_eq_ok h hk
  have hchecks := @checkModules_isOf ms
  have hoverlaps : ∀ d ∈ (Layout.checkOverlaps (Layout.ofModules s.link ms).sections).diagnostics,
      ∃ p ∈ [Problem.sectionOverlap], d.IsOf p := fun d hd =>
    ⟨_, List.mem_singleton_self _, isOf_of_isOverlap
      (Layout.overlap_of_clash (Layout.mem_checkOverlaps_iff.mp hd)).1⟩
  have hglobals : ∀ d ∈ gs.diagnostics, ∃ p ∈ [Problem.duplicateGlobal], d.IsOf p := fun d hd =>
    ⟨_, List.mem_singleton_self _, (addModules_within _ _ _ _).reports gs hgs d hd⟩
  have hmodules : ∀ d ∈ out.diagnostics,
      ∃ p ∈ [Problem.unresolvedSymbol, .relocationFailed], d.IsOf p := fun d hd => by
    simpa using (linkModules_within _ _ _).reports out hout d hd
  have hentry : ∀ d ∈ (resolveEntry s.link gs.value).diagnostics,
      ∃ p ∈ [Problem.missingEntry], d.IsOf p := fun d hd =>
    ⟨_, List.mem_singleton_self _, resolveEntry_reports _ _ d hd⟩
  simp only [List.flatten_cons, List.flatten_nil, List.append_nil] at hds
  refine ⟨gs, out, hgs, hout, rfl, fun f hf => ?overlaps, fun f hf => ?globals,
    fun f hf => ?modules⟩
  case overlaps =>
    simp [hds, filter_eq_nil_of_isOf hf hchecks (by decide),
      filter_eq_nil_of_isOf hf hglobals (by decide), filter_eq_nil_of_isOf hf hmodules (by decide),
      filter_eq_nil_of_isOf hf hentry (by decide)]
  case globals =>
    simp [hds, filter_eq_nil_of_isOf hf hchecks (by decide),
      filter_eq_nil_of_isOf hf hoverlaps (by decide), filter_eq_nil_of_isOf hf hmodules (by decide),
      filter_eq_nil_of_isOf hf hentry (by decide)]
  case modules =>
    simp [hds, filter_eq_nil_of_isOf hf hchecks (by decide),
      filter_eq_nil_of_isOf hf hoverlaps (by decide), filter_eq_nil_of_isOf hf hglobals (by decide),
      filter_eq_nil_of_isOf hf hentry (by decide)]

theorem filter_linkage {r : Reported (Option Linkage)} (h : linkage s ms = .ok r) :
    r.diagnostics.filter isOverlap = if (checkModules ms).value then
      (Layout.checkOverlaps (Layout.ofModules s.link ms).sections).diagnostics else [] := by
  have hisOf : ∀ d, isOverlap d → d.IsOf .sectionOverlap := fun d => isOf_of_isOverlap
  obtain ⟨hvalue, hnone⟩ := linkage_value h
  cases hk : r.value with
  | none =>
    rw [hk] at hvalue
    rw [hnone hk, filter_eq_nil_of_isOf hisOf checkModules_isOf (by decide), ← hvalue]
    rfl
  | some k =>
    rw [hk] at hvalue
    obtain ⟨gs, out, -, -, -, hoverlaps, -⟩ := linkage_phases h hk
    rw [hoverlaps _ hisOf, ← hvalue]
    exact List.filter_eq_self.mpr fun d hd =>
      (Layout.overlap_of_clash (Layout.mem_checkOverlaps_iff.mp hd)).1

theorem filter_link {r : Reported (Option Program)} (h : link s ms = .ok r) :
    r.diagnostics.filter isOverlap = if (checkModules ms).value then
      (Layout.checkOverlaps (Layout.ofModules s.link ms).sections).diagnostics else [] := by
  obtain ⟨k, hk, hds⟩ := link_diagnostics h
  rw [hds, filter_promoteIf, filter_linkage hk]
  refine promoteIf_of_errors _ fun d hd => ?_
  split at hd
  · exact (Layout.overlap_of_clash (Layout.mem_checkOverlaps_iff.mp hd)).2
  · cases hd

theorem exists_image_of_linkage {r : Reported (Option Linkage)} {k : Linkage}
    (h : linkage s ms = .ok r) (hk : r.value = some k) (ha : ∀ m ∈ ms, m.Alignable) :
    ∃ img, k.layout.image s.order k.globals k.modules = .ok img := by
  obtain ⟨gs, out, -, hgs, hout, rfl, -⟩ := linkage_eq_ok h hk
  have halike := alike_linkModules hout
  obtain ⟨img, himg, -⟩ := Layout.exists_image s.link s.order halike
    (alignable_of_alike halike ha) (Globals.distinct_ofModules _ _ _ hgs)
  exact ⟨img, himg⟩

theorem link_fault {f : Fault} (h : link s ms = .error f) (ha : ∀ m ∈ ms, m.Alignable) :
    linkage s ms = .error f := by
  unfold link at h
  split at h
  · next hk =>
    cases h
    exact hk
  · next k hk =>
    dsimp only at h
    split at h
    · cases h
    · next l hl =>
      obtain ⟨img, himg⟩ := exists_image_of_linkage hk hl ha
      by_cases he : 0 < errorCount (promoteIf s.strict k.diagnostics)
      · cases (if_pos he).symm.trans h
      · replace h := (if_neg he).symm.trans h
        rw [himg] at h
        cases h

theorem separate_of_link {p : Program} {ds : List Diagnostic} (h : link s ms = .ok ⟨some p, ds⟩) :
    (Layout.ofModules s.link ms).sections.Pairwise
      fun o o' => ¬ ∃ a, o.Covers a ∧ o'.Covers a := by
  obtain ⟨gs, out, hl⟩ := linking_of_link h rfl
  have hquiet := hl.quiet (Layout.checkOverlaps (Layout.ofModules s.link ms).sections).diagnostics
    (by simp)
  have hcount := errorCount_le_promoteIf s.strict
    (Layout.checkOverlaps (Layout.ofModules s.link ms).sections).diagnostics
  refine Layout.separate_of_quiet (List.eq_nil_iff_forall_not_mem.mpr fun d hd => ?_)
  have hsev := (Layout.overlap_of_clash (Layout.mem_checkOverlaps_iff.mp hd)).2
  have hpos : 0 < errorCount
      (Layout.checkOverlaps (Layout.ofModules s.link ms).sections).diagnostics :=
    List.countP_pos_iff.mpr ⟨d, hd, by simp [isError, hsev]⟩
  omega

/-- Where modules go in memory. Sections and the parts of modules in them are aligned and in order,
sections that share an address are reported, and a program has every part at its place, with zeros
between them. Linking never stops over a place that does not fit. -/
theorem memory_layout (h : ∀ m ∈ ms, m.finalized ∧ m.Alignable) (s : Settings) :
    (Layout.ofModules s.link ms).Arranges ms ∧
    (∀ r, link s ms = .ok r → (r.diagnostics.filter isOverlap).Nodup ∧
      ∀ d, d ∈ r.diagnostics.filter isOverlap ↔
        (∀ m ∈ ms, m.failed = false) ∧ (Layout.ofModules s.link ms).Clash d) ∧
    (∀ f, link s ms = .error f → linkage s ms = .error f ∧ f ≠ .inconsistentLayout) ∧
    ∀ p, (link s ms).Gives (some p) →
      (∀ i j n n' a, (Layout.ofModules s.link ms).Occupies ms i n a →
        (Layout.ofModules s.link ms).Occupies ms j n' a → i = j ∧ n = n') ∧
      ∃ out, linkModules (Layout.ofModules s.link ms) p.globals 0 ms = .ok out ∧
        List.Forall₂ Alike ms out.value ∧ (Layout.ofModules s.link ms).Shows out.value p.image := by
  have harranged := Layout.arranges_ofModules s.link ms
  refine ⟨harranged, fun r hr => ?_, fun f hf => ?_, fun p hp => ?_⟩
  · have hchecked := checkModules_value fun m hm => (h m hm).1
    rw [filter_link hr, ← hchecked]
    split
    · next hc =>
      exact ⟨Layout.nodup_checkOverlaps harranged.distinct, fun d =>
        Layout.mem_checkOverlaps_iff.trans ⟨fun hd => ⟨hc, hd⟩, And.right⟩⟩
    · next hc => exact ⟨.nil, fun d => ⟨nofun, fun hd => absurd hd.1 hc⟩⟩
  · have hlinkage := link_fault hf fun m hm => (h m hm).2
    refine ⟨hlinkage, ?_⟩
    rintro rfl
    rcases linkage_faults hlinkage with ⟨n, hn⟩ | hn | hn <;> cases hn
  · obtain ⟨ds, hp⟩ := hp
    have hsep := separate_of_link hp
    obtain ⟨out, hout, -, himg⟩ := link_eq_ok hp rfl
    have halike := alike_linkModules hout
    exact ⟨fun i j n n' a hi hj => harranged.occupant_unique hsep hi hj, out, hout, halike,
      Layout.shows_image himg halike⟩

end Link

def gappedParts : List Source.File :=
  [⟨"a.s", [".globl main", "main: nop", ".data", ".byte 1"]⟩,
    ⟨"b.s", [".data", ".align 3", "x: .byte 2"]⟩]

theorem memory_layout_gappedParts : ∃ ms p out, build {} gappedParts = some (ms, p) ∧
    (∀ m ∈ ms, m.finalized ∧ m.Alignable) ∧ (Layout.ofModules {} ms).Arranges ms ∧
    (Layout.ofModules {} ms).Shows out p.image ∧ List.Forall₂ Alike ms out ∧
    p.image.contentsOf ".data" = [1, 0, 0, 0, 0, 0, 0, 0, 2] ∧
    ∀ i n, (Layout.ofModules {} ms).Occupies ms i n 0x10010008 → i = 1 ∧ n = ".data" := by
  have hbuild : (build {} gappedParts).any fun x => x.1.all isSized &&
      decide (∀ m ∈ x.1, m.finalized ∧ m.Alignable) &&
      x.2.image.contentsOf ".data" == [1, 0, 0, 0, 0, 0, 0, 0, 2] &&
      (((Layout.ofModules {} x.1).section? ".data").any fun out =>
        out.address == 0x10010000 && out.offsets[1]? == some 8) &&
      x.1[1]?.any fun m => m.offset ".data" == 1 := by
    decide +kernel
  obtain ⟨⟨ms, p⟩, hb, hx⟩ := (Option.any_eq_true _ _).mp hbuild
  simp only [Bool.and_eq_true, decide_eq_true_eq, beq_iff_eq] at hx
  obtain ⟨⟨⟨⟨hsized, hms⟩, hdata⟩, hsection⟩, hmodule⟩ := hx
  obtain ⟨out, hout, haddress⟩ := (Option.any_eq_true _ _).mp hsection
  obtain ⟨m, hm, hlen⟩ := (Option.any_eq_true _ _).mp hmodule
  simp only [Bool.and_eq_true, beq_iff_eq] at haddress hlen
  obtain ⟨harranged, -, -, hprogram⟩ := memory_layout hms {}
  obtain ⟨hunique, res, -, halike, hshows⟩ := hprogram p (linked_of_build hb hsized).linked
  have hx : (Layout.ofModules {} ms).Occupies ms 1 ".data" 0x10010008 :=
    ⟨out, 8, m, hout, haddress.2, hm, by omega, by omega⟩
  exact ⟨ms, p, res.value, hb, hms, harranged, hshows, halike, hdata,
    fun i n hi => hunique i 1 n ".data" _ hi hx⟩

end MipsToolchain
