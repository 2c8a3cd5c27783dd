import MipsToolchain.Object.Listing
import MipsToolchain.Proofs.Link.Placement

namespace MipsToolchain

open Diagnostic

namespace Layout

theorem nodup_addNames (ss : List Section) (names : List Name) (h : names.Nodup) :
    (ss.foldl (fun names s => if s.name ∈ names then names else names ++ [s.name]) names).Nodup ∧
    ∀ n, n ∈ names ∨ n ∈ ss.map Section.name →
      n ∈ ss.foldl (fun names s => if s.name ∈ names then names else names ++ [s.name]) names := by
  induction ss generalizing names with
  | nil => exact ⟨h, fun n hn => by simpa using hn⟩
  | cons s ss ih =>
    rw [List.foldl_cons]
    split
    · next hs =>
      refine ⟨(ih names h).1, fun n hn => (ih names h).2 n ?_⟩
      rcases hn with hn | hn
      · exact .inl hn
      · rw [List.map_cons, List.mem_cons] at hn
        rcases hn with rfl | hn
        · exact .inl hs
        · exact .inr hn
    · next hs =>
      have hnew : (names ++ [s.name]).Nodup := by
        rw [List.nodup_append]
        refine ⟨h, by simp, fun a ha b hb => ?_⟩
        rw [List.mem_singleton] at hb
        rintro rfl
        exact hs (hb ▸ ha)
      refine ⟨(ih _ hnew).1, fun n hn => (ih _ hnew).2 n ?_⟩
      rw [List.map_cons, List.mem_cons] at hn
      rw [List.mem_append, List.mem_singleton, or_assoc]
      exact hn

theorem nodup_sectionNames (ms : List Module) : (sectionNames ms).Nodup :=
  (nodup_addNames _ _ (by decide)).1

theorem mem_sectionNames {ms : List Module} {m : Module} (hm : m ∈ ms) {n : Name} {s : Section}
    (hs : m.section? n = some s) : n ∈ sectionNames ms := by
  refine (nodup_addNames _ _ (by decide)).2 n (.inr ?_)
  have hmem : s ∈ m.sections := List.mem_of_find?_eq_some hs
  have hname : s.name = n := by simpa using List.find?_some hs
  exact List.mem_map.mpr ⟨s, List.mem_flatMap.mpr ⟨m, hm, hmem⟩, hname⟩

theorem map_place {α : Type} (f : OutputSection → α) (hf : ∀ s a, f { s with address := a } = f s)
    (text data : Nat) (ss : List OutputSection) : (place text data ss).map f = ss.map f := by
  induction ss generalizing text data with
  | nil => rfl
  | cons s ss ih =>
    rw [place]
    split <;> rw [List.map_cons, List.map_cons, hf, ih]

theorem names_ofModules (l : LinkSettings) (ms : List Module) :
    (ofModules l ms).sections.map OutputSection.name = sectionNames ms := by
  rw [ofModules, map_place OutputSection.name fun _ _ => rfl, List.map_map]
  exact List.map_id _

theorem nodup_names_ofModules (l : LinkSettings) (ms : List Module) :
    ((ofModules l ms).sections.map OutputSection.name).Nodup := by
  rw [names_ofModules]
  exact nodup_sectionNames ms

theorem section?_ofModules (l : LinkSettings) {ms : List Module} {n : Name}
    (h : n ∈ sectionNames ms) :
    ∃ out ∈ (ofModules l ms).sections, out.name = n ∧ (ofModules l ms).section? n = some out := by
  rw [← names_ofModules l ms, List.mem_map] at h
  obtain ⟨out, hmem, hn⟩ := h
  cases hf : (ofModules l ms).section? n with
  | none =>
    have hnone := List.find?_eq_none.mp hf out hmem
    exact absurd hn (by simpa using hnone)
  | some o =>
    exact ⟨o, List.mem_of_find?_eq_some hf, by simpa using List.find?_some hf, rfl⟩

theorem offsets_ofModules {l : LinkSettings} {ms : List Module} {out : OutputSection}
    (h : out ∈ (ofModules l ms).sections) :
    out.offsets = (OutputSection.contributions out.name 0 ms).1 := by
  have hmap : (out.name, out.offsets) ∈
      (ofModules l ms).sections.map fun o => (o.name, o.offsets) := List.mem_map_of_mem h
  rw [ofModules, map_place (fun o => (o.name, o.offsets)) fun _ _ => rfl, List.map_map] at hmap
  obtain ⟨n, -, hn⟩ := List.mem_map.mp hmap
  obtain ⟨hname, hoffsets⟩ := Prod.mk.inj hn
  rw [← hname, ← hoffsets]
  rfl

theorem length_offsets {l : LinkSettings} {ms : List Module} {out : OutputSection}
    (h : out ∈ (ofModules l ms).sections) : out.offsets.length = ms.length := by
  rw [offsets_ofModules h]
  exact OutputSection.length_contributions out.name 0 ms

/-- An address in a section counts from where the module has its part of the section. -/
theorem resolve_eq_ok {l : Layout} {i : Nat} {a : Address} {t : Int64} (ha : a.isRelocatable) :
    l.resolve i a = .ok t ↔ ∃ out start, l.section? a.sectionName = some out ∧
      out.offsets[i]? = some start ∧ Int64.ofNat (out.address + start) + a.value = t := by
  rw [resolve, if_pos ha]
  cases l.section? a.sectionName with
  | none => simp
  | some out => simp [except_map_eq_ok, elementAt_eq_ok]

end Layout

structure Linking (s : Settings) (ms : List Module) (p : Program) (gs : Reported Globals)
    (out : Reported (List Module)) : Prop where
  checked : (checkModules ms).value = true
  globals : Globals.ofModules (Layout.ofModules s.link ms) ms = .ok gs
  modules : linkModules (Layout.ofModules s.link ms) gs.value 0 ms = .ok out
  quiet : ∀ ds ∈ [(checkModules ms).diagnostics,
      (Layout.checkOverlaps (Layout.ofModules s.link ms).sections).diagnostics, gs.diagnostics,
      out.diagnostics, (resolveEntry s.link gs.value).diagnostics],
    errorCount (promoteIf s.strict ds) = 0
  image : (Layout.ofModules s.link ms).image s.order gs.value out.value = .ok p.image
  entry : p.entry = (resolveEntry s.link gs.value).value
  table : p.globals = gs.value

theorem linkage_eq_ok {s : Settings} {ms : List Module} {r : Reported (Option Linkage)}
    {k : Linkage} (h : linkage s ms = .ok r) (hk : r.value = some k) :
    ∃ gs out, (checkModules ms).value = true ∧
      Globals.ofModules (Layout.ofModules s.link ms) ms = .ok gs ∧
      linkModules (Layout.ofModules s.link ms) gs.value 0 ms = .ok out ∧
      k = ⟨Layout.ofModules s.link ms, gs.value, out.value, (resolveEntry s.link gs.value).value⟩ ∧
      r.diagnostics = [(checkModules ms).diagnostics,
        (Layout.checkOverlaps (Layout.ofModules s.link ms).sections).diagnostics, gs.diagnostics,
        out.diagnostics, (resolveEntry s.link gs.value).diagnostics].flatten := by
  obtain ⟨a, b, ha, hb, rfl⟩ := Guarded.bind_eq_ok.mp h
  cases Guarded.liftReported_eq_ok.mp ha
  dsimp only at hk hb
  split at hb
  · next hchecked =>
    obtain ⟨c, d, hc, hd, rfl⟩ := Guarded.bind_eq_ok.mp hb
    cases Guarded.liftReported_eq_ok.mp hc
    obtain ⟨gs, e, hgs, he, rfl⟩ := Guarded.bind_eq_ok.mp hd
    obtain ⟨out, f, hout, hf, rfl⟩ := Guarded.bind_eq_ok.mp he
    obtain ⟨e, g, hentry, hg, rfl⟩ := Guarded.bind_eq_ok.mp hf
    cases Guarded.liftReported_eq_ok.mp hentry
    cases Guarded.pure_eq_ok.mp hg
    cases hk
    exact ⟨gs, out, hchecked, hgs, hout, rfl, by simp⟩
  · cases Guarded.pure_eq_ok.mp hb
    cases hk

theorem linkage_of_phases {s : Settings} {ms : List Module} {gs : Reported Globals}
    {out : Reported (List Module)} (hchecked : (checkModules ms).value = true)
    (hgs : Globals.ofModules (Layout.ofModules s.link ms) ms = .ok gs)
    (hout : linkModules (Layout.ofModules s.link ms) gs.value 0 ms = .ok out) :
    linkage s ms = .ok ⟨some ⟨Layout.ofModules s.link ms, gs.value, out.value,
      (resolveEntry s.link gs.value).value⟩, [(checkModules ms).diagnostics,
        (Layout.checkOverlaps (Layout.ofModules s.link ms).sections).diagnostics, gs.diagnostics,
        out.diagnostics, (resolveEntry s.link gs.value).diagnostics].flatten⟩ := by
  refine Guarded.bind_eq_ok.mpr ⟨_, ⟨some _, _⟩, Guarded.liftReported_eq_ok.mpr rfl, ?_, rfl⟩
  refine (if_pos hchecked).trans ?_
  refine Guarded.bind_eq_ok.mpr ⟨_, ⟨_, _⟩, Guarded.liftReported_eq_ok.mpr rfl, ?_, rfl⟩
  refine Guarded.bind_eq_ok.mpr ⟨gs, ⟨_, _⟩, hgs, ?_, rfl⟩
  refine Guarded.bind_eq_ok.mpr ⟨out, ⟨_, _⟩, hout, ?_, rfl⟩
  exact Guarded.bind_eq_ok.mpr ⟨_, ⟨_, []⟩, Guarded.liftReported_eq_ok.mpr rfl, rfl, rfl⟩

theorem quiet_flatten {strict : Bool} {dss : List (List Diagnostic)} :
    errorCount (promoteIf strict dss.flatten) = 0 ↔
      ∀ ds ∈ dss, errorCount (promoteIf strict ds) = 0 := by
  induction dss with
  | nil => cases strict <;> simp [promoteIf, errorCount]
  | cons ds dss ih => simp [← ih]

/-- A program exists only if every module was patched without an error, and it is then made of the
patched modules. -/
theorem linking_of_link {s : Settings} {ms : List Module} {r : Reported (Option Program)}
    {p : Program} (h : link s ms = .ok r) (hp : r.value = some p) :
    ∃ gs out, Linking s ms p gs out := by
  unfold link at h
  cases hres : linkage s ms with
  | error f =>
    rw [hres] at h
    cases h
  | ok res =>
    rw [hres] at h
    dsimp only at h
    cases hk : res.value with
    | none =>
      rw [hk] at h
      cases h
      cases hp
    | some k =>
      rw [hk] at h
      dsimp only at h
      by_cases he : 0 < errorCount (promoteIf s.strict res.diagnostics)
      · cases (if_pos he).symm.trans h
        cases hp
      · replace h := (if_neg he).symm.trans h
        obtain ⟨gs, out, hchecked, hgs, hout, rfl, hds⟩ := linkage_eq_ok hres hk
        rw [hds] at he
        dsimp only at h
        cases himg : (Layout.ofModules s.link ms).image s.order gs.value out.value with
        | error f =>
          rw [himg] at h
          cases h
        | ok img =>
          rw [himg] at h
          cases h
          cases hp
          exact ⟨gs, out, hchecked, hgs, hout, quiet_flatten.mp (Nat.eq_zero_of_not_pos he), himg,
            rfl, rfl⟩

theorem Linking.link_eq {s : Settings} {ms : List Module} {p : Program} {gs : Reported Globals}
    {out : Reported (List Module)} (h : Linking s ms p gs out) :
    (link s ms).Gives (some p) := by
  obtain ⟨ds, hlinkage, hds⟩ : ∃ ds, linkage s ms = .ok ⟨some ⟨Layout.ofModules s.link ms, gs.value,
      out.value, (resolveEntry s.link gs.value).value⟩, ds⟩ ∧
      errorCount (promoteIf s.strict ds) = 0 :=
    ⟨_, linkage_of_phases h.checked h.globals h.modules, quiet_flatten.mpr h.quiet⟩
  refine ⟨promoteIf s.strict ds, ?_⟩
  rw [link, hlinkage]
  refine (if_neg (by rw [hds]; exact Nat.lt_irrefl 0)).trans ?_
  dsimp only
  rw [h.image, ← h.entry, ← h.table]

theorem link_eq_ok {s : Settings} {ms : List Module} {r : Reported (Option Program)} {p : Program}
    (h : link s ms = .ok r) (hp : r.value = some p) :
    ∃ out, linkModules (Layout.ofModules s.link ms) p.globals 0 ms = .ok out ∧
      errorCount out.diagnostics = 0 ∧
      (Layout.ofModules s.link ms).image s.order p.globals out.value = .ok p.image := by
  obtain ⟨gs, out, hl⟩ := linking_of_link h hp
  have hquiet := hl.quiet out.diagnostics (by simp)
  have herr := errorCount_le_promoteIf s.strict out.diagnostics
  rw [hl.table]
  exact ⟨out, hl.modules, by omega, hl.image⟩

/-- Where the image has the part of a module in a section. -/
structure Part (l : Layout) (i : Nat) (img : Module) (n : Name) (out : OutputSection)
    (start : Nat) : Prop where
  placed : l.section? n = some out
  starts : out.offsets[i]? = some start
  address : (img.section? n).map Section.virtualAddress = some out.address.toUInt64

namespace Part

variable {l : Layout} {i : Nat} {img : Module} {n : Name} {out : OutputSection} {start : Nat}

theorem partStart? (h : Part l i img n out start) : l.partStart? n i = some start := by
  rw [Layout.partStart?, h.placed, Option.bind_some, h.starts]

theorem resolve (h : Part l i img n out start) {a : Address} (ha : a.isRelocatable)
    (hn : a.sectionName = n) :
    l.resolve i a = .ok (Int64.ofNat (out.address + start) + a.value) :=
  (Layout.resolve_eq_ok ha).mpr ⟨out, start, hn ▸ h.placed, h.starts, rfl⟩

theorem pc (h : Part l i img n out start) (k : Nat) :
    (img.section? n).map (·.pc k) = some (UInt32.ofNat (out.address + k)) := by
  obtain ⟨s, hs, ha⟩ := Option.map_eq_some_iff.mp h.address
  rw [hs, Option.map_some, Section.pc, ha]
  refine congrArg some ?_
  rw [← UInt32.toNat_inj]
  simp

end Part

structure Holds (l : Layout) (i : Nat) (img m : Module) (n : Name) (out : OutputSection)
    (start : Nat) : Prop extends Part l i img n out start where
  bytes : ∀ k < m.offset n, img.byte? n (start + k) = m.byte? n k

theorem Holds.word {l : Layout} {i : Nat} {img m : Module} {n : Name} {out : OutputSection}
    {start k : Nat} (h : Holds l i img m n out start) (hk : k + 4 ≤ m.offset n) (o : ByteOrder) :
    img.wordIn? o n (start + k) = m.wordIn? o n k :=
  Module.wordIn?_congr fun j hj => by
    rw [Nat.add_assoc]
    exact h.bytes (k + j) (by omega)

theorem link_module {s : Settings} {ms : List Module} {r : Reported (Option Program)} {p : Program}
    (h : link s ms = .ok r) (hp : r.value = some p) {i : Nat} {m : Module}
    (hm : ms[i]? = some m) :
    ∃ res, linkReferences (Layout.ofModules s.link ms) p.globals i m.references m = .ok res ∧
      errorCount res.diagnostics = 0 ∧ ∀ n, (m.section? n).isSome → ∃ out start,
        Holds (Layout.ofModules s.link ms) i p.image res.value n out start := by
  obtain ⟨all, hall, he, himg⟩ := link_eq_ok h hp
  obtain ⟨res, hres, her, hval⟩ := linkModules_eq_ok hall he hm
  rw [Nat.zero_add] at hres
  refine ⟨res, hres, her, fun n hn => ?_⟩
  obtain ⟨t, ht⟩ := Option.isSome_iff_exists.mp hn
  obtain ⟨out, hmem, rfl, hsec⟩ := Layout.section?_ofModules s.link
    (Layout.mem_sectionNames (List.mem_of_getElem? hm) ht)
  have hi : i < out.offsets.length := by
    rw [Layout.length_offsets hmem]
    exact (List.getElem?_eq_some_iff.mp hm).1
  obtain ⟨ha, hparts⟩ :=
    (Layout.image_spec himg (Layout.nodup_names_ofModules s.link ms)).2 out hmem
  refine ⟨out, out.offsets[i], ⟨hsec, List.getElem?_eq_getElem hi, ha⟩, fun k hk => ?_⟩
  rw [Module.byte?_eq_contentsOf, Module.byte?_eq_contentsOf]
  refine hparts i res.value _ hval (List.getElem?_eq_getElem hi) k ?_
  rw [Module.length_contentsOf]
  exact hk

end MipsToolchain
