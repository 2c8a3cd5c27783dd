import Mathlib.Data.List.Forall2
import MipsToolchain.Proofs.Link.Exports
import MipsToolchain.Proofs.Link.Tidy

namespace MipsToolchain

open Diagnostic MipsToolchain.Module

def Symbol.bare (s : Symbol) : Symbol := { s with forward := false, origin := .none }

def Global.bare (g : Global) : Global := { g with symbol := g.symbol.bare }

theorem Symbol.fields_of_bare {s s' : Symbol} (h : s'.bare = s.bare) : s'.name = s.name ∧
    s'.type = s.type ∧ s'.binding = s.binding ∧ s'.address = s.address := by
  simpa [bare] using h

theorem Global.fields_of_bare {g g' : Global} (h : g'.bare = g.bare) :
    g'.symbol.bare = g.symbol.bare ∧ g'.address = g.address ∧ g'.module = g.module := by
  simpa [bare] using h

theorem Global.name_of_bare {g g' : Global} (h : g'.bare = g.bare) : g'.name = g.name :=
  (Symbol.fields_of_bare (fields_of_bare h).1).1

namespace Diagnostic

def severities (ds : List Diagnostic) : List Severity := ds.map severity

theorem severities_append (ds es : List Diagnostic) :
    severities (ds ++ es) = severities ds ++ severities es :=
  List.map_append

theorem errorCount_of_severities (strict : Bool) {ds es : List Diagnostic}
    (h : severities es = severities ds) :
    errorCount (promoteIf strict es) = errorCount (promoteIf strict ds) := by
  have hcount : ∀ ds, errorCount (promoteIf strict ds) =
      (severities ds).countP fun s => (if strict then s.promote else s) == .error := by
    intro ds
    rw [severities, List.countP_map]
    cases strict with
    | false => rfl
    | true => exact List.countP_map
  rw [hcount, hcount, h]

end Diagnostic

/-- Whether a computation comes to a related result wherever another one comes to a result, with
reports of the same severities. -/
def Guarded.Mirrors {α β : Type} (R : α → β → Prop) (x : Guarded α) (y : Guarded β) : Prop :=
  ∀ r, x = .ok r → ∃ r', y = .ok r' ∧ R r.value r'.value ∧
    severities r'.diagnostics = severities r.diagnostics

namespace Guarded.Mirrors

variable {α β γ δ : Type} {R : α → β → Prop} {Q : γ → δ → Prop}

theorem pure {a : α} {b : β} (h : R a b) :
    Mirrors R (Pure.pure a : Guarded α) (Pure.pure b : Guarded β) := by
  intro r hr
  cases pure_eq_ok.mp hr
  exact ⟨_, rfl, h, rfl⟩

theorem ofReported {x : Reported α} {y : Reported β} (h : R x.value y.value)
    (hs : severities y.diagnostics = severities x.diagnostics) :
    Mirrors R (liftM x : Guarded α) (liftM y : Guarded β) := by
  intro r hr
  cases liftReported_eq_ok.mp hr
  exact ⟨y, rfl, h, hs⟩

theorem refl (x : Guarded α) : Mirrors (fun a b => b = a) x x :=
  fun r hr => ⟨r, hr, rfl, rfl⟩

/-- Where one list has an element, another one of its length has one as well. -/
theorem elementAt {xs : List α} {ys : List β} (h : ys.length = xs.length) (k : Nat) :
    Mirrors (fun _ _ => True) (liftM (MipsToolchain.elementAt xs k) : Guarded α)
      (liftM (MipsToolchain.elementAt ys k) : Guarded β) := by
  intro r hr
  obtain ⟨x, hx, rfl⟩ := liftExcept_eq_ok.mp hr
  have hk := (List.getElem?_eq_some_iff.mp (elementAt_eq_ok.mp hx)).1
  exact ⟨_, liftExcept_eq_ok.mpr ⟨_, elementAt_of_lt (h ▸ hk), rfl⟩, trivial, rfl⟩

theorem bind {x : Guarded α} {y : Guarded β} {f : α → Guarded γ} {g : β → Guarded δ}
    (h : Mirrors R x y) (hf : ∀ a b, R a b → Mirrors Q (f a) (g b)) :
    Mirrors Q (x >>= f) (y >>= g) := by
  intro r hr
  obtain ⟨a, c, ha, hc, rfl⟩ := bind_eq_ok.mp hr
  obtain ⟨b, hb, hab, hsab⟩ := h a ha
  obtain ⟨d, hd, hcd, hscd⟩ := hf _ _ hab c hc
  refine ⟨_, bind_eq_ok.mpr ⟨b, d, hb, hd, rfl⟩, hcd, ?_⟩
  rw [severities_append, severities_append, hsab, hscd]

end Guarded.Mirrors

namespace Globals

open Guarded

def bare (gs : Globals) : Globals := ⟨gs.entries.map Global.bare⟩

def Similar (gs gs' : Globals) : Prop := gs'.bare = gs.bare

theorem get?_bare (gs : Globals) (n : Name) : gs.bare.get? n = (gs.get? n).map Global.bare := by
  rw [get?, bare, List.find?_map]
  rfl

theorem bare_insert (gs : Globals) (g : Global) : (gs.insert g).bare = gs.bare.insert g.bare := by
  have hsome : (gs.bare.get? g.bare.name).isSome = (gs.get? g.name).isSome := by
    rw [get?_bare, Option.isSome_map]
    rfl
  rw [insert, insert, hsome]
  split
  · simp only [bare, List.map_map, Globals.mk.injEq]
    refine List.map_congr_left fun h _ => ?_
    rw [Function.comp_apply, Function.comp_apply, apply_ite Global.bare]
    rfl
  · simp [bare]

variable {gs gs' : Globals} {g g' : Global}

theorem Similar.get? (h : Similar gs gs') (n : Name) :
    (gs'.get? n).map Global.bare = (gs.get? n).map Global.bare := by
  rw [← get?_bare, ← get?_bare, h]

theorem Similar.addresses (h : Similar gs gs') (n : Name) :
    (gs'.get? n).map Global.address = (gs.get? n).map Global.address := by
  have hbare : Global.address ∘ Global.bare = Global.address := rfl
  rw [← hbare, ← Option.map_map, h.get?, Option.map_map]

theorem Similar.insert (h : Similar gs gs') (hg : g'.bare = g.bare) :
    Similar (gs.insert g) (gs'.insert g') := by
  rw [Similar, bare_insert, bare_insert, h, hg]

theorem Similar.mirrors_merge (h : Similar gs gs') (hg : g'.bare = g.bare)
    {names names' : List String} (hnames : names'.length = names.length) :
    Mirrors Similar (gs.merge names g) (gs'.merge names' g') := by
  have hget := h.get? g.name
  obtain ⟨hsymbol, -, hmodule⟩ := Global.fields_of_bare hg
  have hb : g'.symbol.binding = g.symbol.binding := (Symbol.fields_of_bare hsymbol).2.2.1
  rw [Globals.merge, Globals.merge, Global.name_of_bare hg]
  cases hp : gs.get? g.name with
  | none =>
    rw [hp, Option.map_none, Option.map_eq_none_iff] at hget
    rw [hget]
    exact .pure (h.insert hg)
  | some prev =>
    rw [hp, Option.map_some, Option.map_eq_some_iff] at hget
    obtain ⟨prev', hp', hprev⟩ := hget
    obtain ⟨hsymbolp, -, hmodulep⟩ := Global.fields_of_bare hprev
    have hbp : prev'.symbol.binding = prev.symbol.binding := (Symbol.fields_of_bare hsymbolp).2.2.1
    rw [hp']
    dsimp only
    rw [hb, hbp, hmodule, hmodulep]
    split
    · refine .bind (.elementAt hnames _) fun _ _ _ => .bind (.elementAt hnames _) fun _ _ _ => ?_
      exact .bind (.ofReported (R := fun _ _ => True) trivial rfl) fun _ _ _ => .pure h
    · split
      · exact .pure (h.insert hg)
      · exact .pure h

theorem mirrors_addSymbols (l : Layout) {names names' : List String}
    (hnames : names'.length = names.length) (i : Nat) {ss ss' : List Symbol}
    (hs : ss'.map Symbol.bare = ss.map Symbol.bare) (h : Similar gs gs') :
    Mirrors Similar (addSymbols l names i ss gs) (addSymbols l names' i ss' gs') := by
  induction ss generalizing ss' gs gs' with
  | nil =>
    rw [List.map_nil, List.map_eq_nil_iff] at hs
    subst hs
    exact .pure h
  | cons s ss ih =>
    obtain ⟨s', rest, rfl, hbare, hrest⟩ := List.map_eq_cons_iff.mp hs
    obtain ⟨-, -, hbinding, haddress⟩ := Symbol.fields_of_bare hbare
    have hx : s'.isExported = s.isExported := by rw [Symbol.isExported, hbinding, Symbol.isExported]
    rw [addSymbols, addSymbols, haddress]
    split
    · rw [hx]
      split
      · refine .bind (.refl _) fun address address' heq => ?_
        have hg : Global.bare ⟨s', address', i⟩ = Global.bare ⟨s, address, i⟩ := by
          simp [Global.bare, hbare, heq]
        exact .bind (h.mirrors_merge hg hnames) fun _ _ h' => ih hrest h'
      · exact ih hrest h
    · exact ih hrest h

theorem mirrors_addModules (l : Layout) {names names' : List String}
    (hnames : names'.length = names.length) (i : Nat) {ms ms' : List Module}
    (hs : List.Forall₂ (fun m m' => m'.symbols.map Symbol.bare = m.symbols.map Symbol.bare) ms ms')
    (h : Similar gs gs') :
    Mirrors Similar (addModules l names i ms gs) (addModules l names' i ms' gs') := by
  induction hs generalizing i gs gs' with
  | nil => exact .pure h
  | cons hm _ ih => exact .bind (mirrors_addSymbols l hnames i hm h) fun _ _ h' => ih _ h'

theorem mirrors_ofModules (l : Layout) {ms ms' : List Module}
    (hs : List.Forall₂
      (fun m m' => m'.symbols.map Symbol.bare = m.symbols.map Symbol.bare) ms ms') :
    Mirrors Similar (ofModules l ms) (ofModules l ms') :=
  mirrors_addModules l (by simp [hs.length_eq]) 0 hs rfl

theorem Similar.sorted (h : Similar gs gs') :
    gs'.sorted.map Global.bare = gs.sorted.map Global.bare := by
  have hsorted : ∀ gs : Globals, gs.sorted.map Global.bare = gs.bare.sorted := fun gs =>
    List.map_mergeSort fun _ _ _ _ => rfl
  rw [hsorted, hsorted, h]

section Distinct

def Distinct (gs : Globals) : Prop := (gs.entries.map Global.name).Nodup

theorem Distinct.insert (h : gs.Distinct) (g : Global) : (gs.insert g).Distinct := by
  unfold Globals.insert Distinct
  split
  · rw [map_key_update Global.name g.name (fun _ => g) fun _ _ => rfl]
    exact h
  · next hnone =>
    rw [Option.not_isSome_iff_eq_none] at hnone
    exact nodup_append_new h hnone

theorem distinct_addSymbols {l : Layout} {names : List String} {i : Nat} {ss : List Symbol}
    (h : gs.Distinct) : (addSymbols l names i ss gs).Ensures Distinct := by
  induction ss generalizing gs with
  | nil => exact .pure h
  | cons s ss ih =>
    rw [addSymbols]
    split
    · split
      · exact .skip fun _ => .andThen (merge_ensures h (h.insert _)) fun _ h' => ih h'
      · exact ih h
    · exact ih h

theorem distinct_addModules {l : Layout} {names : List String} {i : Nat} {ms : List Module}
    (h : gs.Distinct) : (addModules l names i ms gs).Ensures Distinct := by
  induction ms generalizing i gs with
  | nil => exact .pure h
  | cons m ms ih => exact .andThen (distinct_addSymbols h) fun _ h' => ih h'

theorem distinct_ofModules (l : Layout) (ms : List Module) : (ofModules l ms).Ensures Distinct :=
  distinct_addModules .nil

theorem mem_sorted {g : Global} : g ∈ gs.sorted ↔ g ∈ gs.entries := List.mem_mergeSort

theorem Distinct.nodup_sorted (h : gs.Distinct) : (gs.sorted.map Global.name).Nodup :=
  ((List.mergeSort_perm gs.entries _).map Global.name).nodup_iff.mpr h

theorem Distinct.get?_of_mem (h : gs.Distinct) {g : Global} (hg : g ∈ gs.entries) :
    gs.get? g.name = some g :=
  find?_of_nodup Global.name h hg

/-- The order of names is that of their bytes. -/
theorem Distinct.pairwise_sorted (h : gs.Distinct) :
    (gs.sorted.map Global.name).Pairwise fun a b => a.bytes < b.bytes := by
  have hle : gs.sorted.Pairwise fun a b => a.name.le b.name := by
    refine List.pairwise_mergeSort (fun a b c hab hbc => ?_) (fun a b => ?_) gs.entries
    · simp only [RawText.le, decide_eq_true_eq] at hab hbc ⊢
      exact List.le_trans hab hbc
    · simp only [RawText.le, Bool.or_eq_true, decide_eq_true_eq]
      exact List.le_total _ _
  have hne := List.pairwise_map.mp h.nodup_sorted
  refine List.pairwise_map.mpr (hle.imp₂ (fun a b hab hab' => ?_) hne)
  rw [RawText.le, decide_eq_true_eq] at hab
  exact List.not_le.mp fun hba => hab' (congrArg RawText.mk (List.le_antisymm hab hba))

end Distinct

end Globals

def Global.exported (g : Global) : Symbol :=
  ⟨g.name, g.symbol.type, g.symbol.binding, some (.absolute g.address), false, g.symbol.origin⟩

/-- A symbol before its binding is declared. -/
def Global.defined (g : Global) : Symbol := { g.exported with binding := .internal }

namespace Layout

theorem perform_exportGlobal {img : Module} {g : Global} (hf : img.finalized = false)
    (hn : img.symbol? g.name = none) :
    img.perform (exportGlobal g) =
      .ok ((), { img with symbols := img.symbols ++ [g.exported] }) := by
  have hdefine : img.perform (tryDefine g.name g.symbol.type (some (.absolute g.address))
      g.symbol.origin) = .ok (true, { img with symbols := img.symbols ++ [g.defined] }) :=
    perform_tryDefine_of_none hf hn _ _ _
  have hnew : ({ img with symbols := img.symbols ++ [g.defined] } : Module).symbol? g.name =
      some g.defined := by
    rw [symbol?_append_new (s := g.defined) hn]
    exact if_pos rfl
  have hdeclare := perform_declare_of_internal
    (m := { img with symbols := img.symbols ++ [g.defined] }) hf hnew rfl g.symbol.binding
  have hupdate := updateSymbol_append_new (m := img) (s := g.defined) hn
    fun s => { s with binding := g.symbol.binding }
  rw [exportGlobal, perform_bind, perform_discard, hdefine]
  dsimp only [Except.map, Except.bind]
  rw [perform_discard, hdeclare]
  exact congrArg (fun m => Except.ok ((), m)) hupdate

theorem perform_exportGlobals {gs : List Global} {img : Module} (hf : img.finalized = false)
    (hd : (gs.map Global.name).Nodup) (hn : ∀ g ∈ gs, img.symbol? g.name = none) :
    img.perform (gs.forM exportGlobal) =
      .ok ((), { img with symbols := img.symbols ++ gs.map Global.exported }) := by
  induction gs generalizing img with
  | nil =>
    rw [List.map_nil, List.append_nil]
    rfl
  | cons g gs ih =>
    rw [List.map_cons, List.nodup_cons] at hd
    obtain ⟨hg, hgs⟩ := List.forall_mem_cons.mp hn
    have hne : ∀ h ∈ gs, h.name ≠ g.exported.name := fun h hmem heq =>
      hd.1 (List.mem_map.mpr ⟨h, hmem, heq⟩)
    have hnone : ∀ h ∈ gs,
        ({ img with symbols := img.symbols ++ [g.exported] } : Module).symbol? h.name = none :=
      fun h hmem => by
        rw [symbol?_append_new (s := g.exported) hg, if_neg (hne h hmem)]
        exact hgs h hmem
    have hrest := ih (by exact hf) hd.2 hnone
    rw [perform_forM_cons, perform_exportGlobal hf hg, Except.bind]
    dsimp only at hrest ⊢
    rw [hrest, List.map_cons, List.append_assoc, List.singleton_append]

theorem distinct_copySection {ms : List Module} {out : OutputSection} {img img' : Module} {u : Unit}
    (h : img.perform (copySection ms out) = .ok (u, img')) (hd : img.DistinctSections) :
    img'.DistinctSections := by
  obtain ⟨s, m₁, m₂, happ, -, rfl, hplace, hparts⟩ := copySection_eq_ok h
  obtain ⟨⟨bs, hbs⟩, -⟩ := copyParts_spec hparts hplace
  exact hbs.distinct ((happ.distinct hd).updateSection out.name fun _ => rfl)

theorem symbols_image {l : Layout} {order : ByteOrder} {gs : Globals} {ms : List Module}
    {img : Module} (h : l.image order gs ms = .ok img) (hd : gs.Distinct) :
    img.symbols = gs.sorted.map Global.exported ∧ img.DistinctSections := by
  obtain ⟨m₁, m₂, hsec, hglob, rfl, -⟩ := image_eq_ok h
  obtain ⟨hsymbols, hopen⟩ := symbols_copySections hsec
  have hnone : ∀ g ∈ gs.sorted, m₁.symbol? g.name = none := fun g _ => by
    simp [Module.symbol?, hsymbols]
  have hdistinct : m₁.DistinctSections :=
    perform_forM_induction (fun _ _ _ => distinct_copySection) hsec List.nodup_nil
  rw [perform_exportGlobals hopen hd.nodup_sorted hnone] at hglob
  cases hglob
  refine ⟨?_, hdistinct⟩
  change m₁.symbols ++ gs.sorted.map Global.exported = _
  rw [hsymbols]
  rfl

theorem exists_image (l : LinkSettings) (order : ByteOrder) {gs : Globals} {ms ms' : List Module}
    (ha : List.Forall₂ Alike ms ms') (ht : ∀ m ∈ ms', m.Alignable) (hd : gs.Distinct) :
    ∃ img, (ofModules l ms).image order gs ms' = .ok img ∧
      img.symbols = gs.sorted.map Global.exported := by
  have hoffsets : ∀ out ∈ (ofModules l ms).sections,
      out.offsets = (OutputSection.contributions out.name 0 ms').1 := fun out ho => by
    rw [offsets_ofModules ho, contributions_congr ha]
  have hfresh : ∀ out ∈ (ofModules l ms).sections,
      ({ name := "image", order } : Module).section? out.name = none := fun _ _ => rfl
  obtain ⟨m, hm⟩ := exists_copySections ht rfl (nodup_names_ofModules l ms) hoffsets hfresh
  obtain ⟨hsymbols, hopen⟩ := symbols_copySections hm
  have hnone : ∀ g ∈ gs.sorted, m.symbol? g.name = none := fun g _ => by
    simp [Module.symbol?, hsymbols]
  have hexport := perform_exportGlobals hopen hd.nodup_sorted hnone
  have hbuild : ({ name := "image", order } : Module).perform (do
      (ofModules l ms).sections.forM (copySection ms')
      gs.sorted.forM exportGlobal) =
        .ok ((), { m with symbols := m.symbols ++ gs.sorted.map Global.exported }) := by
    rw [perform_bind, hm]
    exact hexport
  obtain ⟨img, himg⟩ : ∃ img, (ofModules l ms).image order gs ms' = .ok img :=
    ⟨_, except_bind_eq_ok.mpr ⟨_, hbuild, rfl⟩⟩
  exact ⟨img, himg, (symbols_image himg hd).1⟩

end Layout

end MipsToolchain
