import Mathlib.Data.List.Forall2
import MipsToolchain.Proofs.Link.Relinking
import MipsToolchain.Proofs.Link.Similarity

namespace MipsToolchain

open Diagnostic MipsToolchain.Module

/-- A reference without the constant part, which is in its word too. -/
def Reference.bare (r : Reference) : Reference := { r with addend := 0 }

theorem Reference.fields_of_bare {r q : Reference} (h : q.bare = r.bare) :
    q.location = r.location ∧ q.symbol = r.symbol ∧ q.kind = r.kind := by
  simpa [bare] using h

namespace Module

/-- Modules with the same bytes, symbols and references, which may be in another order. -/
structure Similar (m f : Module) : Prop where
  order : f.order = m.order
  symbols : f.symbols.map Symbol.bare = m.symbols.map Symbol.bare
  contents : ∀ n, f.contentsOf n = m.contentsOf n
  references : ∀ r, r ∈ f.references.map Reference.bare ↔ r ∈ m.references.map Reference.bare

/-- Whether a module can be linked and none of its references gets in the way of a later one. -/
structure Ready (m : Module) : Prop where
  tidy : m.Tidy
  finalized : m.finalized
  intact : m.failed = false
  precedes : m.references.Pairwise Reference.Precedes

variable {m f : Module}

theorem Similar.symm (h : Similar m f) : Similar f m :=
  ⟨h.order.symm, h.symbols.symm, fun n => (h.contents n).symm, fun r => (h.references r).symm⟩

theorem Similar.offset (h : Similar m f) (n : Name) : f.offset n = m.offset n := by
  rw [← length_contentsOf, ← length_contentsOf, h.contents]

theorem Similar.symbol? (h : Similar m f) (n : Name) :
    (f.symbol? n).map Symbol.bare = (m.symbol? n).map Symbol.bare := by
  have hbare : ∀ m : Module, (m.symbol? n).map Symbol.bare =
      (m.symbols.map Symbol.bare).find? (·.name = n) := fun m => by
    rw [List.find?_map]
    rfl
  rw [hbare, hbare, h.symbols]

theorem Similar.counterpart (h : Similar m f) {r : Reference} (hr : r ∈ m.references) :
    ∃ q ∈ f.references, q.bare = r.bare :=
  List.mem_map.mp ((h.references r.bare).mpr (List.mem_map_of_mem hr))

theorem length_section? {n : Name} (h : (m.section? n).isSome) :
    (m.section? n).map Section.length = some (m.offset n) := by
  obtain ⟨s, hs⟩ := Option.isSome_iff_exists.mp h
  rw [hs, offset_of_section? hs, Option.map_some]

theorem Similar.readWord (h : Similar m f) {loc : Address} {w : UInt32}
    (hw : (m.readWord loc).run = .ok (.ok w)) : (f.readWord loc).run = .ok (.ok w) := by
  have hle := le_offset_of_wordIn? (readWord_eq_ok hw)
  have hlt : loc.offset < m.offset loc.sectionName := by omega
  have hm := section?_of_lt_offset hlt
  have hf := section?_of_lt_offset (h.offset loc.sectionName ▸ hlt)
  have hlen : (f.section? loc.sectionName).map Section.length =
      (m.section? loc.sectionName).map Section.length := by
    rw [length_section? hf, length_section? hm, h.offset]
  rw [readWord_congr h.order hlen fun i _ => by
    rw [byte?_eq_contentsOf, byte?_eq_contentsOf, h.contents]]
  exact hw

theorem Similar.relocatedWord (h : Similar m f) {r q : Reference} (hq : q.bare = r.bare)
    {w w' : UInt32} {delta : Int64} (hw : (m.relocatedWord r w delta).run = .ok (.ok w')) :
    (f.relocatedWord q w delta).run = .ok (.ok w') := by
  obtain ⟨hloc, -, hkind⟩ := Reference.fields_of_bare hq
  unfold Module.relocatedWord at hw ⊢
  rw [hkind]
  split at hw
  · exact hw
  · exact hw
  · obtain ⟨v, hv, hw⟩ := run_bind_eq_ok.mp hw
    rw [hloc]
    exact run_bind_eq_ok.mpr ⟨v, run_adapt_eq_ok.mpr (h.readWord (run_adapt_eq_ok.mp hv)), hw⟩
  · split at hw
    · cases hw
    · next hd =>
      rw [if_neg hd]
      exact hw
  · split at hw
    · cases hw
    · next hd =>
      rw [if_neg hd]
      dsimp only at hw ⊢
      split at hw
      · next hfits =>
        rw [if_pos hfits]
        exact hw
      · cases hw
  · cases hw

end Module

section References

variable {l : Layout} {gs gs' : Globals} {i : Nat} {m f : Module}

theorem resolveReference_similar (hm : m.Tidy) (hf : f.Tidy) (h : Similar m f)
    (hg : gs.Similar gs') {r q : Reference} (hq : q.bare = r.bare) :
    resolveReference l gs' i f q = resolveReference l gs i m r := by
  obtain ⟨-, hsymbol, -⟩ := Reference.fields_of_bare hq
  have hshared := hg.addresses r.symbol
  unfold resolveReference
  rw [hsymbol, isSectionName_eq_decide hm.standard, isSectionName_eq_decide hf.standard]
  split
  · rfl
  · have hown := h.symbol? r.symbol
    -- The own symbols agree up to traces, and so do the shared ones.
    cases hs : m.symbol? r.symbol with
    | none =>
      rw [hs, Option.map_none, Option.map_eq_none_iff] at hown
      rw [hown]
      exact congrArg Except.ok hshared
    | some s =>
      rw [hs, Option.map_some, Option.map_eq_some_iff] at hown
      obtain ⟨s', hs', hbare⟩ := hown
      obtain ⟨-, -, hbinding, haddress⟩ := Symbol.fields_of_bare hbare
      have hx : s'.isExported = s.isExported := by
        rw [Symbol.isExported, hbinding, Symbol.isExported]
      rw [hs']
      dsimp only
      rw [haddress, hx, hbinding]
      cases hgs : gs.get? r.symbol with
      | none =>
        rw [hgs, Option.map_none, Option.map_eq_none_iff] at hshared
        rw [hshared]
      | some g =>
        rw [hgs, Option.map_some, Option.map_eq_some_iff] at hshared
        obtain ⟨g', hg', heq⟩ := hshared
        rw [hg']
        cases s.address <;> cases s.isExported <;> simp only [heq]

theorem Relinks.similar (hm : m.Tidy) (hf : f.Tidy) (h : Similar m f) (hg : gs.Similar gs')
    {r q : Reference} (hq : q.bare = r.bare) {w' : UInt32} (hr : Relinks l gs i m r w') :
    Relinks l gs' i f q w' := by
  obtain ⟨hloc, -, hkind⟩ := Reference.fields_of_bare hq
  obtain ⟨t, delta, w, ht, hdelta, hw, hw'⟩ := hr
  refine ⟨t, delta, w, ?_, ?_, ?_, h.relocatedWord hq hw'⟩
  · rw [resolveReference_similar hm hf h hg hq]
    exact ht
  · rw [relocationDelta, hkind, hloc]
    exact hdelta
  · rw [hloc]
    exact h.readWord hw

/-- What patching leaves does not depend on the order of references: their words have no byte in
common, and all other bytes stay. -/
theorem linkReferences_similar (hm : m.Ready) (hf : f.Ready) (h : Similar m f)
    (hg : gs.Similar gs') {res : Reported Module}
    (hrun : linkReferences l gs i m.references m = .ok res)
    (he : errorCount res.diagnostics = 0) :
    res.diagnostics = [] ∧ ∃ f', linkReferences l gs' i f.references f = .ok ⟨f', []⟩ ∧
      ∀ n, f'.contentsOf n = res.value.contentsOf n := by
  obtain ⟨hquiet, hwords⟩ := relinks_of_linkReferences (.refl m) (by simp) hm.precedes hrun he
  have hall : ∀ q ∈ f.references, ∃ w', Relinks l gs' i f q w' := fun q hq => by
    obtain ⟨r, hr, hbare⟩ := h.symm.counterpart hq
    obtain ⟨w', hw', -⟩ := hwords r hr
    exact ⟨w', hw'.similar hm.tidy hf.tidy h hg hbare.symm⟩
  obtain ⟨f', hrun'⟩ := linkReferences_of_relinks (.refl f) (by simp) hf.precedes hall
  obtain ⟨-, hwords'⟩ := relinks_of_linkReferences (.refl f) (by simp) hf.precedes hrun' rfl
  refine ⟨hquiet, f', hrun', fun n => List.ext_getElem? fun k => ?_⟩
  rw [← byte?_eq_contentsOf, ← byte?_eq_contentsOf]
  -- A byte in the word of a reference is what that word became, and every other byte is as it was.
  by_cases hc : ∃ r ∈ m.references, r.Covers n k
  · obtain ⟨r, hr, rfl, hle, hlt⟩ := hc
    obtain ⟨q, hq, hbare⟩ := h.counterpart hr
    obtain ⟨w, hw, hword⟩ := hwords r hr
    obtain ⟨w', hw', hword'⟩ := hwords' q hq
    cases (hw.similar hm.tidy hf.tidy h hg hbare).unique hw'
    rw [(Reference.fields_of_bare hbare).1, h.order] at hword'
    obtain ⟨j, rfl⟩ := Nat.exists_eq_add_of_le hle
    rw [byte?_of_wordIn? hword j (by omega), byte?_of_wordIn? hword' j (by omega)]
  · have hc' : ∀ q ∈ f.references, ¬ q.Covers n k := fun q hq hcovers => by
      obtain ⟨r, hr, hbare⟩ := h.symm.counterpart hq
      refine hc ⟨r, hr, ?_⟩
      rwa [Reference.Covers, (Reference.fields_of_bare hbare).1]
    have hc : ∀ r ∈ m.references, ¬ r.Covers n k := fun r hr hcovers => hc ⟨r, hr, hcovers⟩
    rw [(untouched_linkReferences hrun').bytes n k hc', (untouched_linkReferences hrun).bytes n k hc,
      byte?_eq_contentsOf, byte?_eq_contentsOf, h.contents]

end References

section Modules

variable {ms fs : List Module}

theorem linkModules_similar {l : Layout} {gs gs' : Globals} {i : Nat}
    (h : List.Forall₂ Similar ms fs) (hms : ∀ m ∈ ms, m.Ready) (hfs : ∀ f ∈ fs, f.Ready)
    (hg : gs.Similar gs') {out : Reported (List Module)} (hrun : linkModules l gs i ms = .ok out)
    (he : errorCount out.diagnostics = 0) :
    out.diagnostics = [] ∧ ∃ fs', linkModules l gs' i fs = .ok ⟨fs', []⟩ ∧
      ∀ n, fs'.map (·.contentsOf n) = out.value.map (·.contentsOf n) := by
  induction h generalizing i out with
  | nil =>
    cases Guarded.pure_eq_ok.mp hrun
    exact ⟨rfl, [], rfl, fun _ => rfl⟩
  | cons hm _ ih =>
    obtain ⟨hleft, hms⟩ := List.forall_mem_cons.mp hms
    obtain ⟨hright, hfs⟩ := List.forall_mem_cons.mp hfs
    obtain ⟨a, b, ha, hb, rfl⟩ := Guarded.bind_eq_ok.mp hrun
    obtain ⟨c, d, hc, hd, rfl⟩ := Guarded.bind_eq_ok.mp hb
    cases Guarded.pure_eq_ok.mp hd
    simp only [errorCount_append] at he
    obtain ⟨hquiet, f', hf', hcontents⟩ := linkReferences_similar hleft hright hm hg ha (by omega)
    obtain ⟨hquiet', fs', hfs', hcontents'⟩ := ih hms hfs hc (by omega)
    refine ⟨by simp [hquiet, hquiet'], f' :: fs', ?_, fun n => ?_⟩
    · exact Guarded.bind_eq_ok.mpr ⟨_, ⟨f' :: fs', []⟩, hf',
        Guarded.bind_eq_ok.mpr ⟨_, ⟨f' :: fs', []⟩, hfs', rfl, rfl⟩, rfl⟩
    · rw [List.map_cons, List.map_cons, hcontents, hcontents']

theorem checkModules_of_ready (h : ∀ m ∈ ms, m.Ready) : checkModules ms = ⟨true, []⟩ := by
  induction ms with
  | nil => rfl
  | cons m ms ih =>
    obtain ⟨hm, hms⟩ := List.forall_mem_cons.mp h
    have hcheck : checkModules.check m = ⟨true, []⟩ := by
      rw [checkModules.check, hm.intact, hm.finalized]
      rfl
    rw [checkModules, hcheck, ih hms]
    rfl

theorem resolveEntry_similar (l : LinkSettings) {gs gs' : Globals} (h : gs.Similar gs') :
    resolveEntry l gs' = resolveEntry l gs := by
  have hget := h.addresses l.entry
  unfold resolveEntry
  cases hgs : gs.get? l.entry with
  | none =>
    rw [hgs, Option.map_none, Option.map_eq_none_iff] at hget
    rw [hget]
  | some g =>
    rw [hgs, Option.map_some, Option.map_eq_some_iff] at hget
    obtain ⟨g', hg', haddress⟩ := hget
    rw [hg']
    dsimp only
    rw [haddress]

theorem Layout.ofModules_similar (l : LinkSettings) (h : List.Forall₂ Similar ms fs)
    (hms : ∀ m ∈ ms, m.Ready) (hfs : ∀ f ∈ fs, f.Ready) :
    Layout.ofModules l fs = Layout.ofModules l ms := by
  refine Layout.ofModules_of_tidy l (fun m hm => (hms m hm).tidy) (fun f hf => (hfs f hf).tidy) ?_
  intro n
  clear hms hfs
  induction h with
  | nil => rfl
  | cons hm _ ih => rw [List.map_cons, List.map_cons, hm.offset, ih]

end Modules

/-- Programs that differ in nothing but the traces of source texts. -/
structure Program.Agrees (p q : Program) : Prop where
  entry : q.entry = p.entry
  sections : ∀ n, (q.image.section? n).map (fun s => (s.contents, s.virtualAddress)) =
    (p.image.section? n).map fun s => (s.contents, s.virtualAddress)
  symbols : q.image.symbols.map Symbol.bare = p.image.symbols.map Symbol.bare
  globals : p.globals.Similar q.globals

theorem tidy_of_alike {ms ms' : List Module} (h : List.Forall₂ Alike ms ms')
    (ht : ∀ m ∈ ms, m.Tidy) : ∀ m ∈ ms', m.Tidy := by
  induction h with
  | nil => exact ht
  | cons hm _ ih =>
    obtain ⟨htidy, hrest⟩ := List.forall_mem_cons.mp ht
    exact List.forall_mem_cons.mpr ⟨htidy.of_alike hm, ih hrest⟩

theorem link_similar {s : Settings} {ms fs : List Module} (h : List.Forall₂ Similar ms fs)
    (hms : ∀ m ∈ ms, m.Ready) (hfs : ∀ f ∈ fs, f.Ready) {p : Program}
    (hp : (link s ms).Gives (some p)) : ∃ q, (link s fs).Gives (some q) ∧ p.Agrees q := by
  obtain ⟨ds, hrun⟩ := hp
  obtain ⟨gs, out, hlinking⟩ := linking_of_link hrun rfl
  have hlayout := Layout.ofModules_similar s.link h hms hfs
  have hcheck := checkModules_of_ready hms
  have hcheck' := checkModules_of_ready hfs
  obtain ⟨gs', hgs', hg, hseverities⟩ := Globals.mirrors_ofModules (Layout.ofModules s.link ms)
    (h.imp fun _ _ hm => hm.symbols) gs hlinking.globals
  have hquiet := hlinking.quiet out.diagnostics (by simp)
  have hcount := errorCount_le_promoteIf s.strict out.diagnostics
  obtain ⟨hout, fs', hfs', hcontents⟩ :=
    linkModules_similar h hms hfs hg hlinking.modules (by omega)
  have halike := alike_linkModules hlinking.modules
  have halike' := alike_linkModules hfs'
  have htidy := tidy_of_alike halike fun m hm => (hms m hm).tidy
  have htidy' := tidy_of_alike halike' fun f hf => (hfs f hf).tidy
  have hdistinct := Globals.distinct_ofModules _ _ _ hlinking.globals
  have hdistinct' := Globals.distinct_ofModules _ _ _ hgs'
  obtain ⟨img, himg, hsymbols⟩ := Layout.exists_image s.link s.order halike'
    (fun m hm => (htidy' m hm).alignable) hdistinct'
  have hentry := resolveEntry_similar s.link hg
  -- The second program. Its image exists because alignments and names are the same.
  let q : Program := ⟨img, (resolveEntry s.link gs'.value).value, gs'.value⟩
  have hlinking' : Linking s fs q gs' ⟨fs', []⟩ := by
    refine ⟨by rw [hcheck'], ?_, ?_, ?_, ?_, rfl, rfl⟩
    · rw [hlayout]
      exact hgs'
    · rw [hlayout]
      exact hfs'
    · have hold := hlinking.quiet
      rw [hcheck, hout] at hold
      rw [hcheck', hlayout, hentry]
      simp only [List.forall_mem_cons] at hold ⊢
      rw [errorCount_of_severities s.strict hseverities]
      exact hold
    · exact himg
  refine ⟨q, hlinking'.link_eq, ?_, fun n => ?_, ?_, ?_⟩
  · rw [hlinking.entry, ← hentry]
  · rw [Layout.sections_image himg halike', Layout.sections_image hlinking.image halike, hlayout,
      Layout.partBytes_of_tidy htidy htidy' n (hcontents n) 0]
  · have hold := (Layout.symbols_image hlinking.image hdistinct).1
    have hexported : ∀ gs : Globals, (gs.sorted.map Global.exported).map Symbol.bare =
        (gs.sorted.map Global.bare).map Global.exported := fun gs => by
      rw [List.map_map, List.map_map]
      rfl
    rw [hold, hsymbols, hexported, hexported, hg.sorted]
  · rw [hlinking.table]
    exact hg

end MipsToolchain
