import MipsToolchain.Proofs.Assembly.Origins
import MipsToolchain.Proofs.Link.Exports
import MipsToolchain.Proofs.Link.Splits
import MipsToolchain.Proofs.Link.Transfers

namespace MipsToolchain

open Diagnostic Guarded MipsToolchain.Module

/-- What a name stands for in a module of a program: a symbol that the module keeps to itself, or one
that all modules share, or zero for a weak one that no module defines. -/
inductive Globals.Means (gs : Globals) (l : Layout) (i : Nat) (m : Module) (n : Name) :
    Int64 → Prop
  | own {s : Symbol} {a : Address} {t : Int64} : m.symbol? n = some s → s.isExported = false →
      s.address = some a → l.resolve i a = .ok t → Means gs l i m n t
  | shared {g : Global} : (∀ s, m.symbol? n = some s → s.isExported ∨ s.address = none) →
      gs.get? n = some g → Means gs l i m n g.address
  | absent {s : Symbol} : m.symbol? n = some s → s.address = none → s.binding = .weak →
      gs.get? n = none → Means gs l i m n 0

/-- The address of a name that modules share, which is zero where none of them defines it. -/
def Globals.addressOf (gs : Globals) (n : Name) : Int64 := ((gs.get? n).map (·.address)).getD 0

theorem Globals.Means.addressOf {gs : Globals} {l : Layout} {i : Nat} {m : Module} {n : Name}
    {x : Int64} (h : gs.Means l i m n x) {t : Symbol} (ht : m.symbol? n = some t)
    (hx : t.isExported) : x = gs.addressOf n ∧ (gs.get? n = none → t.binding = .weak) := by
  cases h with
  | own hs hinternal =>
    cases ht.symm.trans hs
    rw [hx] at hinternal
    cases hinternal
  | shared _ hget =>
    rw [Globals.addressOf, hget]
    exact ⟨rfl, nofun⟩
  | absent hs _ hweak hget =>
    cases ht.symm.trans hs
    rw [Globals.addressOf, hget]
    exact ⟨rfl, fun _ => hweak⟩

section Lookup

variable {l : Layout} {gs : Globals} {i : Nat} {m : Module} {r : Reference} {t : Int64}

theorem resolveReference_start (h : m.isSectionName r.symbol) :
    resolveReference l gs i m r = .ok (some t) ↔ l.resolve i (.relative r.symbol 0) = .ok t := by
  rw [resolveReference, if_pos h, except_map_eq_ok]
  simp

theorem map_some_eq_ok {a : Address} :
    (l.resolve i a).map some = .ok (some t) ↔ l.resolve i a = .ok t := by
  rw [except_map_eq_ok]
  simp

theorem means_of_resolveReference (h : m.isSectionName r.symbol = false)
    (hg : ∀ s, m.symbol? r.symbol = some s → s.isExported → s.address.isSome →
      (gs.get? r.symbol).isSome)
    (ht : resolveReference l gs i m r = .ok (some t)) : gs.Means l i m r.symbol t := by
  rw [resolveReference, if_neg (by simp [h])] at ht
  split at ht
  · next hnone =>
    obtain ⟨g, hget, rfl⟩ := Option.map_eq_some_iff.mp (Except.ok.inj ht)
    exact .shared (fun s hs => by cases hnone.symm.trans hs) hget
  · next s hs =>
    -- A symbol without an address is looked up in the table, and one with an address only if
    -- others see it.
    cases ha : s.address with
    | none =>
      cases hget : gs.get? r.symbol with
      | some g =>
        rw [ha, hget] at ht
        cases ht
        refine .shared (fun s' hs' => .inr ?_) hget
        cases hs.symm.trans hs'
        exact ha
      | none =>
        simp only [ha, hget] at ht
        split at ht
        · next hweak =>
          cases ht
          exact .absent hs ha hweak hget
        · cases ht
    | some a =>
      cases hx : s.isExported with
      | false =>
        rw [ha, hx] at ht
        exact .own hs hx ha (map_some_eq_ok.mp ht)
      | true =>
        obtain ⟨g, hget⟩ := Option.isSome_iff_exists.mp (hg s hs hx (by simp [ha]))
        rw [ha, hx, hget] at ht
        cases ht
        refine .shared (fun s' hs' => .inl ?_) hget
        cases hs.symm.trans hs'
        exact hx

theorem Globals.Means.resolveReference (h : m.isSectionName r.symbol = false)
    (ht : gs.Means l i m r.symbol t) : resolveReference l gs i m r = .ok (some t) := by
  rw [MipsToolchain.resolveReference, if_neg (by simp [h])]
  cases ht with
  | own hs hx ha hresolve =>
    rw [hs]
    dsimp only
    rw [ha, hx]
    exact map_some_eq_ok.mpr hresolve
  | shared hown hget =>
    cases hs : m.symbol? r.symbol with
    | none => simp [hget]
    | some s =>
      dsimp only
      rw [hget]
      rcases hown s hs with hx | ha
      · rw [hx]
        cases s.address <;> rfl
      · rw [ha]
  | absent hs ha hweak hget =>
    rw [hs]
    dsimp only
    rw [ha, hget, if_pos hweak]

theorem resolveReference_means (h : m.isSectionName r.symbol = false)
    (hg : ∀ s, m.symbol? r.symbol = some s → s.isExported → s.address.isSome →
      (gs.get? r.symbol).isSome) :
    resolveReference l gs i m r = .ok (some t) ↔ gs.Means l i m r.symbol t :=
  ⟨means_of_resolveReference h hg, fun ht => ht.resolveReference h⟩

end Lookup

section Linked

variable {s : Settings} {files : List Source.File} {ms : List Module} {p : Program} {i : Nat}
  {f : Source.File} {m : Module} {n : Name}

theorem Linked.file (h : Linked s files ms p) (hf : files[i]? = some f) (hm : ms[i]? = some m) :
    ∃ a, assembleFile s f = .ok a ∧ errorCount a.diagnostics = 0 ∧ m = a.value := by
  obtain ⟨ds, ha, he⟩ := h.assembled
  obtain ⟨a, hfile, hea, hval⟩ := assembleFiles_eq_ok ha he hf
  exact ⟨a, hfile, hea, Option.some.inj (hm.symm.trans hval)⟩

theorem Linked.present (h : Linked s files ms p) (hm : ms[i]? = some m) {t : Symbol}
    (ht : m.symbol? n = some t) (hx : t.isExported) (ha : t.address.isSome) :
    (p.globals.get? n).isSome := by
  obtain ⟨ds, hl⟩ := h.linked
  obtain ⟨gs, out, hlinking⟩ := linking_of_link hl rfl
  have hname : t.name = n := by simpa using List.find?_some ht
  have hmem := List.mem_of_find?_eq_some ht
  rw [hlinking.table, ← hname]
  exact Globals.ofModules_present (List.mem_of_getElem? hm) hmem hx ha gs hlinking.globals

theorem Linked.ordered (h : Linked s files ms p) (hf : files[i]? = some f) (hm : ms[i]? = some m) :
    m.order = s.order ∧ m.references.Pairwise Reference.Disjoint ∧ SplitsPaired m.references := by
  obtain ⟨a, hfile, he, rfl⟩ := h.file hf hm
  obtain ⟨⟨ps, hps⟩, -⟩ := assembleLines_references hfile
  obtain ⟨horder, -, hdisj⟩ := assembleFile_spec hfile he
  exact ⟨horder, hdisj (h.sized _ (List.mem_of_getElem? hm)), hps.splitsPaired⟩

theorem Linked.rewrites (h : Linked s files ms p) (hf : files[i]? = some f) (hm : ms[i]? = some m)
    {q : Reference} (hq : q ∈ m.references) : ∃ t w w',
      Rewrites (Layout.ofModules s.link ms) p.globals i m p.image q t w w' ∧
        (q.kind ≠ .pcrel16 → (m.relocatedWord q w t).run = .ok (.ok w')) := by
  obtain ⟨ds, hl⟩ := h.linked
  obtain ⟨-, hdisjoint, hpaired⟩ := h.ordered hf hm
  exact link_rewrites hl rfl hm hdisjoint hpaired hq

/-- What linking takes a name for: the start of the section of that name, if the module has one, and
else what the name stands for. -/
def Globals.Found (gs : Globals) (l : Layout) (i : Nat) (m : Module) (n : Name) (t : Int64) : Prop :=
  if m.isSectionName n then l.resolve i (.relative n 0) = .ok t else gs.Means l i m n t

theorem Linked.found (h : Linked s files ms p) (hm : ms[i]? = some m) {q : Reference} {t : Int64} :
    resolveReference (Layout.ofModules s.link ms) p.globals i m q = .ok (some t) ↔
      p.globals.Found (Layout.ofModules s.link ms) i m q.symbol t := by
  unfold Globals.Found
  split
  · next hsection => exact resolveReference_start hsection
  · next hsection =>
    exact resolveReference_means (by simpa using hsection) fun u hu => h.present hm hu

/-- What linking makes of the references of assembled files. Each comes from an expression of some
statement. If its value was relative to a section then the reference is resolved to the start of
that module's part of the section. If a name was not known then the reference is resolved to what
the name stands for, unless the module has a section of that name, which is then taken instead. -/
theorem linked_reference_found (h : Linked s files ms p) (hf : files[i]? = some f)
    (hm : ms[i]? = some m) {q : Reference} (hq : q ∈ m.references) :
    ∃ b env e v t w w', TextReaches s f.name f.lines b env ∧
      Environment.Records s.encoder env b e v q ∧
      Rewrites (Layout.ofModules s.link ms) p.globals i m p.image q t w w' ∧
      (v.reference = none → q.symbol = v.address.sectionName ∧
        (Layout.ofModules s.link ms).resolve i (.relative v.address.sectionName 0) = .ok t) ∧
      ∀ u, v.reference = some u → q.symbol = u.symbol ∧ env.resolve u.symbol = none ∧
        (∃ n ∈ e.names, u.symbol = RawText.ofString n) ∧
        p.globals.Found (Layout.ofModules s.link ms) i m u.symbol t := by
  obtain ⟨t, w, w', hrewrites, -⟩ := h.rewrites hf hm hq
  have hfound := (h.found hm).mp hrewrites.target
  obtain ⟨a, hfile, he, rfl⟩ := h.file hf hm
  obtain ⟨b, env, hb, ws, hws, hmem⟩ := assembleLines_leaves hfile he hq
  obtain ⟨x, hx, hr⟩ := List.mem_filterMap.mp hmem
  obtain ⟨k, hk⟩ := List.mem_iff_getElem?.mp hx
  obtain ⟨e, v, hrecords⟩ := hws.records hk hr
  obtain ⟨hleads, -⟩ := assembleLines_stores hfile he hb hws.kind
  obtain ⟨first, count, j, -, -, -, ⟨ds, hv⟩, -⟩ := hrecords.operand
  have hfrom := Expr.comesFrom_eval _ e _ hv v rfl
  refine ⟨b, env, e, v, t, w, w', hb, hrecords, hrewrites, fun hnone => ?_, fun u hu => ?_⟩
  · -- A value without a name is relative to a section that the module has.
    have hsymbol : q.symbol = v.address.sectionName := by
      rw [hrecords.symbol, ExprValue.target, hnone]
    have hrel : v.address.isRelocatable := by
      simpa [ExprValue.isRelocatable, hnone] using hrecords.relocatable
    have hsection : a.value.isSectionName v.address.sectionName := by
      refine hleads.grows.sections _ ?_
      rcases hfrom.address with hempty | ⟨n, c, hc, hname⟩
      · rw [Address.isRelocatable, hempty] at hrel
        cases hrel
      · rw [← hname]
        refine hleads.sound.resolve hc ?_
        rwa [Address.isRelocatable, hname]
    rw [Globals.Found, hsymbol, if_pos hsection] at hfound
    exact ⟨hsymbol, hfound⟩
  · have hsymbol : q.symbol = u.symbol := by rw [hrecords.symbol, ExprValue.target, hu]
    obtain ⟨hunknown, hnamed⟩ := hfrom.symbol u hu
    exact ⟨hsymbol, hunknown, hnamed, hsymbol ▸ hfound⟩

end Linked

def namedTwice : Source.File :=
  ⟨"a.s", [".globl main", "main: nop", ".data", "a: .word foo", "foo: .word foo",
    ".section foo, \"aw\"", ".word 7"]⟩

theorem linked_namedTwice_found : ∃ ms p m, ∃ q : Reference, ∃ b env e v t w w',
    Linked {} [namedTwice] ms p ∧ ms[0]? = some m ∧ q ∈ m.references ∧ q.symbol = "foo" ∧
    TextReaches {} namedTwice.name namedTwice.lines b env ∧
    Environment.Records (Settings.encoder {}) env b e v q ∧
    Rewrites (Layout.ofModules {} ms) p.globals 0 m p.image q t w w' ∧ t = 0x10010008 ∧
    p.globals.Means (Layout.ofModules {} ms) 0 m "foo" 0x10010004 := by
  -- Assembling, linking and the address of the name are decided.
  have hbuild : (build {} [namedTwice]).any fun x => x.1.all isSized && x.1[0]?.any fun m =>
      m.references[0]?.any (fun q : Reference => q.symbol == "foo" &&
        decide (resolveReference (Layout.ofModules {} x.1) x.2.globals 0 m q =
          .ok (some 0x10010008))) &&
      (m.symbol? "foo").any fun u => !u.isExported && u.address == some (.relative ".data" 4) &&
        decide ((Layout.ofModules {} x.1).resolve 0 (.relative ".data" 4) =
          .ok 0x10010004) := by
    decide +kernel
  obtain ⟨⟨ms, p⟩, hb, hx⟩ := (Option.any_eq_true _ _).mp hbuild
  simp only [Bool.and_eq_true] at hx
  obtain ⟨hsized, hx⟩ := hx
  obtain ⟨m, hm, hx⟩ := (Option.any_eq_true _ _).mp hx
  simp only [Bool.and_eq_true] at hx
  obtain ⟨hq, hu⟩ := hx
  obtain ⟨q, hq, hfirst⟩ := (Option.any_eq_true _ _).mp hq
  obtain ⟨u, hu, hown⟩ := (Option.any_eq_true _ _).mp hu
  simp only [Bool.and_eq_true, beq_iff_eq, Bool.not_eq_true', decide_eq_true_iff] at hfirst hown
  obtain ⟨hsymbol, hresolve⟩ := hfirst
  obtain ⟨⟨hinternal, haddress⟩, hplace⟩ := hown
  have hlinked := linked_of_build hb hsized
  have hmem := List.mem_of_getElem? hq
  obtain ⟨b, env, e, v, t, w, w', hreaches, hrecords, hrewrites, -⟩ :=
    linked_reference_found hlinked (show [namedTwice][0]? = some namedTwice from rfl) hm hmem
  refine ⟨ms, p, m, q, b, env, e, v, t, w, w', hlinked, hm, hmem, hsymbol, hreaches, hrecords,
    hrewrites, ?_, .own hu hinternal haddress hplace⟩
  exact Option.some.inj (Except.ok.inj (hrewrites.target.symm.trans hresolve))

end MipsToolchain
