import Mathlib.Data.List.Perm.Basic
import MipsToolchain.Proofs.Link.Completion
import MipsToolchain.Proofs.Link.Merging

namespace MipsToolchain

open Diagnostic Guarded MipsToolchain.Module

def Diagnostic.isUnresolved (d : Diagnostic) : Bool :=
  d.key == Problem.unresolvedSymbol.entry.key

namespace Module

def lacks (m : Module) (gs : Globals) (r : Reference) : Bool :=
  !m.isSectionName r.symbol && (gs.get? r.symbol).isNone &&
    (m.symbol? r.symbol).all fun x => x.address.isNone && x.binding != .weak

def unresolvedReport (m : Module) (r : Reference) : Diagnostic :=
  .of .unresolvedSymbol .none [r.symbol.text] [.text r.symbol, .text m.name]

def unresolved (gs : Globals) (m : Module) : List Diagnostic :=
  (m.references.filter (m.lacks gs)).map m.unresolvedReport

variable {m m' : Module}

theorem Alike.lacks (h : Alike m m') (gs : Globals) : m'.lacks gs = m.lacks gs := by
  funext r
  unfold Module.lacks symbol?
  rw [h.isSectionName, h.symbols]

theorem Alike.unresolvedReport (h : Alike m m') : m'.unresolvedReport = m.unresolvedReport := by
  funext r
  unfold Module.unresolvedReport
  rw [h.name]

theorem lacks_congr {gs gs' : Globals} (h : ∀ n, (gs'.get? n).isSome = (gs.get? n).isSome)
    (m : Module) : m.lacks gs' = m.lacks gs := by
  funext r
  unfold lacks
  rw [← Option.not_isSome, ← Option.not_isSome, h]

section Patching

variable {r : Reference} {loc : Address}

theorem Alike.wordAt (h : Alike m m') (loc : Address) :
    (m'.wordAt loc).map Section.shape = (m.wordAt loc).map Section.shape := by
  have hshape := h.section? loc.sectionName
  unfold Module.wordAt
  cases hs : m.section? loc.sectionName with
  | none =>
    rw [hs, Option.map_none, Option.map_eq_none_iff] at hshape
    rw [hshape]
  | some s =>
    rw [hs, Option.map_some, Option.map_eq_some_iff] at hshape
    obtain ⟨s', hs', hsame⟩ := hshape
    have hlen : s'.length = s.length := congrArg (·.2.2.2) hsame
    rw [hs']
    dsimp only
    rw [hlen]
    split
    · rfl
    · exact congrArg Except.ok hsame

theorem canRead_of_readWord (h : ∀ f, (m.readWord loc).run ≠ .error f) : m.CanRead loc := by
  intro s hs
  by_contra hle
  refine h .outOfRange ?_
  have hnone : wordBytes? s loc.value.toInt.toNat = none := if_neg hle
  unfold readWord
  rw [hs, mk_ok_bind, hnone]
  rfl

theorem readWord_error {e : AccessError} (h : (m.readWord loc).run = .ok (.error e)) :
    m.wordAt loc = .error e := by
  cases hs : m.wordAt loc with
  | error e' =>
    unfold readWord at h
    rw [hs] at h
    cases h
    rfl
  | ok s =>
    unfold readWord at h
    rw [hs, mk_ok_bind] at h
    split at h <;> cases h

theorem canPatch_of_relocatedWord (hword : m.CanRead r.location) {w : UInt32} {delta : Int64}
    (h : ∀ f, (m.relocatedWord r w delta).run ≠ .error f) : m.CanPatch r := by
  refine ⟨?_, hword, fun hk => canRead_of_readWord fun f hf => h f ?_⟩
  · cases hk : r.kind with
    | unassigned c =>
      refine absurd ?_ (h .unreachable)
      unfold relocatedWord
      rw [hk]
      rfl
    | _ => rfl
  · unfold relocatedWord
    rw [hk]
    exact run_bind_eq_error.mpr (.inl (run_adapt_eq_error.mpr hf))

theorem relocate_isOk_of_alike (h : Alike m m') {delta : Int64}
    {y : Except RelocationError Module} (hy : (m.relocate r delta).run = .ok y) (delta' : Int64) :
    ∃ y', (m'.relocate r delta').run = .ok y' := by
  have hne : ∀ f, (m.relocate r delta).run ≠ .error f := fun f hf => by
    rw [hy] at hf
    cases hf
  have hword : m.CanRead r.location := canRead_of_readWord fun f hf =>
    hne f (run_bind_eq_error.mpr (.inl (run_adapt_eq_error.mpr hf)))
  refine except_isOk_of_ne_error fun f hf => ?_
  obtain hread' | ⟨w', hw', -⟩ := run_bind_eq_error.mp hf
  · exact readWord_ne_error (hword.of_alike h) f (run_adapt_eq_error.mp hread')
  · obtain ⟨s', hs', -⟩ := run_bind_eq_ok.mp (run_adapt_eq_ok.mp hw')
    have hat := h.wordAt r.location
    rw [Except.ok.inj hs'] at hat
    obtain ⟨x, hx⟩ := except_isOk_of_ne_error (readWord_ne_error hword)
    match x, hx with
    | .error e, hx =>
      rw [readWord_error hx] at hat
      cases hat
    | .ok w, hx =>
      have hpatch : m.CanPatch r := canPatch_of_relocatedWord hword fun f hf => hne f
        (run_bind_eq_error.mpr (.inr ⟨w, run_adapt_eq_ok.mpr hx,
          run_bind_eq_error.mpr (.inl hf)⟩))
      exact relocate_ne_error (hpatch.of_alike h) delta' f hf

end Patching

end Module

namespace Layout

def SameNames (l l' : Layout) : Prop := ∀ n, (l'.section? n).isSome = (l.section? n).isSome

variable {l l' : Layout} {i j count : Nat}

theorem SameNames.resolve (h : SameNames l l') (hl : l'.Serves count) (hj : j < count) {a : Address}
    {v : Int64} (hv : l.resolve i a = .ok v) : ∃ w, l'.resolve j a = .ok w := by
  refine hl.resolve_isOk hj fun hrel => ?_
  obtain ⟨out, _, hout, -⟩ := (resolve_eq_ok hrel).mp hv
  rw [h, hout]
  rfl

theorem mem_addNames (ss : List Section) (names : List Name) (n : Name) :
    n ∈ ss.foldl (fun names s => if s.name ∈ names then names else names ++ [s.name]) names ↔
      n ∈ names ∨ n ∈ ss.map Section.name := by
  induction ss generalizing names with
  | nil => simp
  | cons s ss ih =>
    rw [List.foldl_cons, ih, List.map_cons, List.mem_cons, ← or_assoc]
    refine or_congr_left ?_
    split
    · next hs => exact ⟨.inl, fun h => h.elim id fun hn => hn ▸ hs⟩
    · rw [List.mem_append, List.mem_singleton]

theorem section?_isSome_iff (s : LinkSettings) (ms : List Module) (n : Name) :
    ((ofModules s ms).section? n).isSome ↔ n ∈ sectionNames ms := by
  rw [← names_ofModules s ms, section?, List.find?_isSome, List.mem_map]
  simp

theorem sameNames_of_perm (s : LinkSettings) {ms ms' : List Module} (h : ms.Perm ms') :
    SameNames (ofModules s ms) (ofModules s ms') := by
  intro n
  rw [Bool.eq_iff_iff, section?_isSome_iff, section?_isSome_iff, sectionNames, sectionNames,
    mem_addNames, mem_addNames]
  exact or_congr_right ((h.flatMap_right _).map _).mem_iff.symm

end Layout

section Phases

variable {l l' : Layout} {gs gs' : Globals} {i j count : Nat} {m m' : Module} {r : Reference}

theorem resolveReference_isNone {t : Option Int64} (h : resolveReference l gs i m r = .ok t) :
    t.isNone = m.lacks gs r := by
  unfold resolveReference at h
  unfold lacks
  split at h
  · next hn =>
    obtain ⟨v, -, rfl⟩ := except_map_eq_ok.mp h
    simp [hn]
  · next hn =>
    split at h
    · next hs =>
      cases h
      simp [hn, hs]
    · next x hs =>
      split at h
      · next ha _ =>
        obtain ⟨v, -, rfl⟩ := except_map_eq_ok.mp h
        simp [hs, ha]
      · next hg _ =>
        cases h
        simp [hg]
      · next ha _ _ =>
        obtain ⟨v, -, rfl⟩ := except_map_eq_ok.mp h
        simp [hs, ha]
      · next ha hg =>
        cases h
        by_cases hw : x.binding = .weak <;> simp [hn, hs, ha, hg, hw]

/-- Which names are known decides what a reference needs. -/
theorem resolveReference_isOk (hsame : l.SameNames l') (hl : l'.Serves count) (hj : j < count)
    (hg : ∀ n, (gs'.get? n).isSome = (gs.get? n).isSome) {t : Option Int64}
    (h : resolveReference l gs i m r = .ok t) : ∃ t', resolveReference l' gs' j m r = .ok t' := by
  have hresolve : ∀ a, (l.resolve i a).map some = .ok t →
      ∃ t', (l'.resolve j a).map some = .ok t' := by
    intro a ha
    obtain ⟨v, hv, -⟩ := except_map_eq_ok.mp ha
    obtain ⟨w, hw⟩ := hsame.resolve hl hj hv
    exact ⟨some w, except_map_eq_ok.mpr ⟨w, hw, rfl⟩⟩
  have hname := hg r.symbol
  unfold resolveReference at h ⊢
  split at h
  · next hn =>
    rw [if_pos hn]
    exact hresolve _ h
  · next hn =>
    rw [if_neg hn]
    split at h
    · exact ⟨_, rfl⟩
    · next x hs =>
      cases ha : x.address <;> cases hx : x.isExported <;> cases hgs : gs.get? r.symbol <;>
        cases hgs' : gs'.get? r.symbol <;> simp_all

theorem relocationDelta_isOk (hsame : l.SameNames l') (hl : l'.Serves count) (hj : j < count)
    {t d : Int64} (h : relocationDelta l i r t = .ok d) (t' : Int64) :
    ∃ d', relocationDelta l' j r t' = .ok d' := by
  unfold relocationDelta at h ⊢
  split at h
  · next hk =>
    obtain ⟨v, hv, -⟩ := except_map_eq_ok.mp h
    obtain ⟨w, hw⟩ := hsame.resolve hl hj hv
    rw [if_pos hk]
    exact ⟨_, except_map_eq_ok.mpr ⟨w, hw, rfl⟩⟩
  · next hk =>
    rw [if_neg hk]
    exact ⟨_, rfl⟩

theorem linkReference_isOk (hsame : l.SameNames l') (hl : l'.Serves count) (hj : j < count)
    (hg : ∀ n, (gs'.get? n).isSome = (gs.get? n).isSome) (ha : Alike m m') {a : Reported Module}
    (h : linkReference l gs i m r = .ok a) : ∃ b, linkReference l' gs' j m' r = .ok b := by
  rw [linkReference_eq] at h ⊢
  rw [resolveReference_alike ha]
  cases ht : resolveReference l gs i m r with
  | error f =>
    rw [ht] at h
    cases h
  | ok t =>
    obtain ⟨t', ht'⟩ := resolveReference_isOk hsame hl hj hg ht
    -- Either both know the name or neither does, since the tables have the same names.
    have hnone := resolveReference_isNone ht'
    rw [lacks_congr hg, ← resolveReference_isNone ht] at hnone
    rw [ht] at h
    rw [ht']
    match t, t', hnone, h with
    | none, none, _, _ => exact ⟨_, rfl⟩
    | some t, some t', _, h =>
      dsimp only at h ⊢
      split at h
      · cases h
      · next d hd =>
        obtain ⟨d', hd'⟩ := relocationDelta_isOk hsame hl hj hd t'
        rw [hd']
        have hpatch : ∃ y, (m.relocate r d).run = .ok y := by
          cases hy : (m.relocate r d).run with
          | error f =>
            rw [hy] at h
            cases h
          | ok y => exact ⟨y, rfl⟩
        obtain ⟨y, hy⟩ := hpatch
        obtain ⟨y', hy'⟩ := relocate_isOk_of_alike ha hy d'
        dsimp only
        rw [hy']
        cases y' <;> exact ⟨_, rfl⟩

theorem linkReferences_isOk (hsame : l.SameNames l') (hl : l'.Serves count) (hj : j < count)
    (hg : ∀ n, (gs'.get? n).isSome = (gs.get? n).isSome) (ha : Alike m m') {rs : List Reference}
    {a : Reported Module} (h : linkReferences l gs i rs m = .ok a) :
    (linkReferences l' gs' j rs m').Completes fun _ => True := by
  induction rs generalizing m m' a with
  | nil => exact .pure trivial
  | cons r rs ih =>
    obtain ⟨b, c, hb, hc, -⟩ := Guarded.bind_eq_ok.mp h
    obtain ⟨b', hb'⟩ := linkReference_isOk hsame hl hj hg ha hb
    have halike : Alike b.value b'.value :=
      (alike_linkReference hb).symm.trans (ha.trans (alike_linkReference hb'))
    exact .andThen (p := fun m₁ => m₁ = b'.value) ⟨b', hb', rfl⟩ fun m₁ h₁ => h₁ ▸ ih halike hc

theorem linkReferences_of_linkModules {ms : List Module} {out : Reported (List Module)}
    (h : linkModules l gs i ms = .ok out) (hm : m ∈ ms) :
    ∃ k a, linkReferences l gs k m.references m = .ok a := by
  induction ms generalizing i out with
  | nil => cases hm
  | cons m₀ ms ih =>
    obtain ⟨a, b, ha, hb, -⟩ := Guarded.bind_eq_ok.mp h
    obtain ⟨c, d, hc, -, -⟩ := Guarded.bind_eq_ok.mp hb
    rcases List.mem_cons.mp hm with rfl | hm
    · exact ⟨i, a, ha⟩
    · exact ih hc hm

theorem linkModules_isOk (hsame : l.SameNames l') (hl : l'.Serves count)
    (hg : ∀ n, (gs'.get? n).isSome = (gs.get? n).isSome) {ms ms' : List Module}
    (hms : ∀ m ∈ ms', m ∈ ms) (hj : j + ms'.length ≤ count) {out : Reported (List Module)}
    (h : linkModules l gs i ms = .ok out) : (linkModules l' gs' j ms').Completes fun _ => True := by
  induction ms' generalizing j with
  | nil => exact .pure trivial
  | cons m ms' ih =>
    obtain ⟨hm, hrest⟩ := List.forall_mem_cons.mp hms
    obtain ⟨k, a, ha⟩ := linkReferences_of_linkModules h hm
    rw [List.length_cons] at hj
    refine .andThen (linkReferences_isOk hsame hl (by omega) hg (.refl m) ha) fun m' _ => ?_
    exact .andThen (ih hrest (by omega)) fun ms' _ => .pure trivial

theorem addSymbols_isOk (hsame : l.SameNames l') {names names' : List String}
    (hl : l'.Serves names'.length) (hj : j < names'.length) {ss : List Symbol}
    {a : Reported Globals} (h : Globals.addSymbols l names i ss gs = .ok a)
    (hgs : gs'.Indexed names'.length) :
    (Globals.addSymbols l' names' j ss gs').Completes (·.Indexed names'.length) := by
  induction ss generalizing gs gs' a with
  | nil => exact .pure hgs
  | cons x ss ih =>
    unfold Globals.addSymbols at h ⊢
    split at h
    · split at h
      · next hx =>
        obtain ⟨b, c, hb, hc, -⟩ := Guarded.bind_eq_ok.mp h
        obtain ⟨v, hv, rfl⟩ := Guarded.liftExcept_eq_ok.mp hb
        obtain ⟨w, hw⟩ := hsame.resolve hl hj hv
        obtain ⟨d, e, -, he, -⟩ := Guarded.bind_eq_ok.mp hc
        rw [if_pos hx]
        refine .andThen (p := fun _ => True) (.ofExcept ⟨w, hw, trivial⟩) fun address _ => ?_
        exact .andThen (merge_completes hgs hj) fun gs₁ h₁ => ih he h₁
      · next hx =>
        rw [if_neg hx]
        exact ih h hgs
    · exact ih h hgs

theorem addSymbols_of_addModules {names : List String} {ms : List Module} {out : Reported Globals}
    (h : Globals.addModules l names i ms gs = .ok out) (hm : m ∈ ms) :
    ∃ k gs₁ a, Globals.addSymbols l names k m.symbols gs₁ = .ok a := by
  induction ms generalizing i gs out with
  | nil => cases hm
  | cons m₀ ms ih =>
    obtain ⟨a, b, ha, hb, -⟩ := Guarded.bind_eq_ok.mp h
    rcases List.mem_cons.mp hm with rfl | hm
    · exact ⟨i, gs, a, ha⟩
    · exact ih hb hm

theorem addModules_isOk (hsame : l.SameNames l') {names names' : List String}
    (hl : l'.Serves names'.length) {ms ms' : List Module} (hms : ∀ m ∈ ms', m ∈ ms)
    (hj : j + ms'.length ≤ names'.length) {out : Reported Globals}
    (h : Globals.addModules l names i ms gs = .ok out) (hgs : gs'.Indexed names'.length) :
    (Globals.addModules l' names' j ms' gs').Completes fun _ => True := by
  induction ms' generalizing j gs' with
  | nil => exact .pure trivial
  | cons m ms' ih =>
    obtain ⟨hm, hrest⟩ := List.forall_mem_cons.mp hms
    obtain ⟨k, gs₁, a, ha⟩ := addSymbols_of_addModules h hm
    rw [List.length_cons] at hj
    exact .andThen (addSymbols_isOk hsame hl (by omega) ha hgs) fun gs₂ h₂ =>
      ih hrest (by omega) h₂

end Phases

section Unresolved

variable {l : Layout} {gs : Globals} {i : Nat} {m₀ m : Module}

theorem filter_linkReference (ha : Alike m₀ m) {r : Reference} {a : Reported Module}
    (h : linkReference l gs i m r = .ok a) :
    a.diagnostics.filter isUnresolved = if m₀.lacks gs r then [m₀.unresolvedReport r] else [] := by
  rw [linkReference_eq] at h
  rw [← ha.lacks, ← ha.unresolvedReport]
  split at h
  · cases h
  · next ht =>
    cases h
    rw [← resolveReference_isNone ht]
    rfl
  · next t ht =>
    rw [← resolveReference_isNone ht]
    split at h
    · cases h
    · split at h
      · cases h
      · cases h
        rfl
      · cases h
        rfl

theorem filter_linkReferences (ha : Alike m₀ m) {rs : List Reference} {a : Reported Module}
    (h : linkReferences l gs i rs m = .ok a) :
    a.diagnostics.filter isUnresolved = (rs.filter (m₀.lacks gs)).map m₀.unresolvedReport := by
  induction rs generalizing m a with
  | nil =>
    cases Guarded.pure_eq_ok.mp h
    rfl
  | cons r rs ih =>
    obtain ⟨b, c, hb, hc, rfl⟩ := Guarded.bind_eq_ok.mp h
    have hrest := ih (ha.trans (alike_linkReference hb)) hc
    rw [List.filter_append, filter_linkReference ha hb, hrest, List.filter_cons]
    split <;> rfl

theorem filter_linkModules {ms : List Module} {out : Reported (List Module)}
    (h : linkModules l gs i ms = .ok out) :
    out.diagnostics.filter isUnresolved = ms.flatMap (unresolved gs) := by
  induction ms generalizing i out with
  | nil =>
    cases Guarded.pure_eq_ok.mp h
    rfl
  | cons m ms ih =>
    obtain ⟨a, b, ha, hb, rfl⟩ := Guarded.bind_eq_ok.mp h
    obtain ⟨c, d, hc, hd, rfl⟩ := Guarded.bind_eq_ok.mp hb
    cases Guarded.pure_eq_ok.mp hd
    rw [List.filter_append, List.filter_append, filter_linkReferences (.refl m) ha, ih hc,
      List.flatMap_cons]
    exact congrArg _ (List.append_nil _)

end Unresolved

section Reports

variable {s : Settings} {ms : List Module}

theorem isOf_of_isDuplicateOf {n : Name} {d : Diagnostic} (h : isDuplicateOf n d) :
    d.IsOf .duplicateGlobal := by
  simp only [isDuplicateOf, Bool.and_eq_true, beq_iff_eq] at h
  exact h.1

theorem merges_linkage (ha : ∀ m ∈ ms, ∀ x ∈ m.symbols, x.binding.isAssigned) {k : Linkage}
    {ds : List Diagnostic} (h : linkage s ms = .ok ⟨some k, ds⟩) :
    Globals.Merges ms k.globals ds ∧ ds.filter isUnresolved = ms.flatMap (unresolved k.globals) := by
  obtain ⟨gs, out, hgs, hout, hk, -, hduplicates, hunresolved⟩ := linkage_phases h rfl
  have hmerges := Globals.merges_ofModules ha hgs
  have hfound : ds.filter isUnresolved = out.diagnostics.filter isUnresolved :=
    hunresolved _ fun d hd => beq_iff_eq.mp hd
  rw [hfound, filter_linkModules hout, hk]
  refine ⟨⟨hmerges.names, hmerges.bindings, hmerges.sources, fun n => ?_⟩, rfl⟩
  have hcount : ds.countP (isDuplicateOf n) = gs.diagnostics.countP (isDuplicateOf n) := by
    rw [List.countP_eq_length_filter, List.countP_eq_length_filter]
    exact congrArg _ (hduplicates _ fun d hd => isOf_of_isDuplicateOf hd)
  rw [hcount, hmerges.duplicates n]

end Reports

section Permutations

variable {s : Settings} {ms ms' : List Module}

theorem checkModules_perm (hp : ms.Perm ms') :
    (checkModules ms').value = (checkModules ms).value := by
  have hall : ∀ ms : List Module,
      (checkModules ms).value = ms.all fun m => (checkModules.check m).value := by
    intro ms
    induction ms with
    | nil => rfl
    | cons m ms ih =>
      rw [checkModules, Reported.value_bind, Reported.value_bind, Reported.value_pure, ih,
        List.all_cons]
  rw [hall, hall, hp.all_eq]

theorem definitions_perm (hp : ms.Perm ms') (n : Name) (b : Binding) :
    (definitions ms n b).Perm (definitions ms' n b) :=
  hp.flatMap_right _

theorem Globals.Merges.names_perm {gs gs' : Globals} {ds ds' : List Diagnostic}
    (h : Merges ms gs ds) (h' : Merges ms' gs' ds') (hp : ms.Perm ms') (n : Name) :
    (gs'.get? n).isSome = (gs.get? n).isSome := by
  rw [Bool.eq_iff_iff, h.names, h'.names]
  exact exists_congr fun m => and_congr_left fun _ => hp.mem_iff.symm

theorem linkage_isOk_of_perm (hp : ms.Perm ms')
    (ha : ∀ m ∈ ms, ∀ x ∈ m.symbols, x.binding.isAssigned) {k : Linkage} {ds : List Diagnostic}
    (h : linkage s ms = .ok ⟨some k, ds⟩) : ∃ k' ds', linkage s ms' = .ok ⟨some k', ds'⟩ := by
  obtain ⟨gs, out, hchecked, hgs, hout, -, -⟩ := linkage_eq_ok h rfl
  have hl := Layout.sameNames_of_perm s.link hp
  have hmem : ∀ m ∈ ms', m ∈ ms := fun m => hp.mem_iff.mpr
  have hserves := Layout.serves_ofModules s.link ms'
  obtain ⟨gs', hgs', -⟩ : (Globals.ofModules (Layout.ofModules s.link ms') ms').Completes
      fun _ => True := by
    refine addModules_isOk hl ?_ hmem (by simp) hgs fun _ hg => by cases hg
    rw [List.length_map]
    exact hserves
  have hnames := (Globals.merges_ofModules ha hgs).names_perm
    (Globals.merges_ofModules (fun m hm => ha m (hmem m hm)) hgs') hp
  obtain ⟨out', hout', -⟩ := linkModules_isOk hl hserves hnames hmem (Nat.zero_add _).le hout
  exact ⟨_, _, linkage_of_phases ((checkModules_perm hp).trans hchecked) hgs' hout'⟩

/-- Merging does not depend on the order of modules. The table has the same names with the same
bindings, the same global definitions are reported as being too many, and the same references as
being to names that nobody defines. A name stands for its global definition if there is just one,
and for the first of its weak definitions if there is none. -/
theorem linkage_perm (hp : ms.Perm ms')
    (ha : ∀ m ∈ ms, ∀ x ∈ m.symbols, x.binding.isAssigned) {k : Linkage} {ds : List Diagnostic}
    (h : linkage s ms = .ok ⟨some k, ds⟩) :
    ∃ k' ds', linkage s ms' = .ok ⟨some k', ds'⟩ ∧
      Globals.Merges ms k.globals ds ∧ Globals.Merges ms' k'.globals ds' ∧
      (∀ n, (k'.globals.get? n).isSome = (k.globals.get? n).isSome) ∧
      (∀ n g g', k.globals.get? n = some g → k'.globals.get? n = some g' →
        g'.symbol.binding = g.symbol.binding ∧ ((definitions ms n .global).length = 1 →
          ms'[g'.module]? = ms[g.module]? ∧ g'.symbol = g.symbol)) ∧
      (∀ n, ds'.countP (isDuplicateOf n) = ds.countP (isDuplicateOf n)) ∧
      (ds'.filter isUnresolved).Perm (ds.filter isUnresolved) := by
  obtain ⟨k', ds', h'⟩ := linkage_isOk_of_perm hp ha h
  obtain ⟨hmerges, hunresolved⟩ := merges_linkage ha h
  obtain ⟨hmerges', hunresolved'⟩ := merges_linkage (fun m hm => ha m (hp.mem_iff.mpr hm)) h'
  have hnames := hmerges.names_perm hmerges' hp
  have hperm := fun n => definitions_perm hp n .global
  refine ⟨k', ds', h', hmerges, hmerges', hnames, fun n g g' hg hg' => ⟨?_, fun hone => ?_⟩,
    fun n => ?_, ?_⟩
  · have hempty : definitions ms' n .global = [] ↔ definitions ms n .global = [] := by
      rw [← List.length_eq_zero_iff, ← List.length_eq_zero_iff, (hperm n).length_eq]
    simp only [hmerges.bindings n g hg, hmerges'.bindings n g' hg', hempty]
  -- A single definition is the same in both orders, up to the index of its module.
  · obtain ⟨d, hd⟩ := List.length_eq_one_iff.mp hone
    have hd' : definitions ms' n .global = [d] := by
      have hsingle := hperm n
      rwa [hd, List.singleton_perm, eq_comm] at hsingle
    obtain ⟨m, hm, hhead⟩ := hmerges.sources n g hg
    obtain ⟨m', hm', hhead'⟩ := hmerges'.sources n g' hg'
    rw [hmerges.bindings n g hg, if_neg (by simp [hd]), hd] at hhead
    rw [hmerges'.bindings n g' hg', if_neg (by simp [hd']), hd'] at hhead'
    obtain ⟨rfl, hsymbol⟩ := Prod.mk.inj (Option.some.inj (hhead'.symm.trans hhead))
    exact ⟨hm'.trans hm.symm, hsymbol⟩
  · rw [hmerges.duplicates, hmerges'.duplicates, (hperm n).length_eq]
  · have hsame : unresolved k'.globals = unresolved k.globals := by
      funext m
      unfold unresolved
      rw [lacks_congr hnames]
    rw [hunresolved, hunresolved', hsame]
    exact (hp.flatMap_right _).symm

end Permutations

def definer (name : String) (b : Binding) : Module where
  name := name
  order := .big
  symbols := [⟨"x", .label, b, some (.relative ".text" 0), false, .none⟩]
  finalized := true

/-- A definition with a binding that has no meaning keeps its place in the table, so that global ones
behind it are not compared with one another. -/
theorem linkage_perm_unassigned :
    ¬ ∀ (s : Settings) (ms ms' : List Module), ms.Perm ms' → (∀ m ∈ ms, m.finalized) →
      ∀ k ds k' ds', linkage s ms = .ok ⟨some k, ds⟩ → linkage s ms' = .ok ⟨some k', ds'⟩ →
        ∀ n, ds.countP (isDuplicateOf n) = (definitions ms n .global).length - 1 ∧
          ds'.countP (isDuplicateOf n) = ds.countP (isDuplicateOf n) := by
  intro hall
  let ms := [definer "a.o" (.unassigned 3), definer "b.o" .global, definer "c.o" .global]
  have hrun : (linkage {} ms).toOption.any fun r =>
      r.value.isSome && r.diagnostics.countP (isDuplicateOf "x") == 0 := by
    decide
  obtain ⟨⟨v, ds⟩, hr, hcount⟩ := (Option.any_eq_true _ _).mp hrun
  replace hr := except_toOption_eq_some.mp hr
  simp only [Bool.and_eq_true, beq_iff_eq] at hcount
  obtain ⟨k, rfl⟩ := Option.isSome_iff_exists.mp hcount.1
  have hclaim := (hall {} ms ms (.refl ms) (by decide) k ds k ds hr hr "x").1
  rw [hcount.2] at hclaim
  revert hclaim
  decide

theorem linkage_perm_reversed : ∃ k k' ds ds',
    linkage {} [definer "a.o" .weak, definer "b.o" .global, definer "c.o" .global] =
      .ok ⟨some k, ds⟩ ∧
    linkage {} [definer "c.o" .global, definer "b.o" .global, definer "a.o" .weak] =
      .ok ⟨some k', ds'⟩ ∧
    ds'.countP (isDuplicateOf "x") = ds.countP (isDuplicateOf "x") ∧
    ds.countP (isDuplicateOf "x") = 1 := by
  let ms := [definer "a.o" .weak, definer "b.o" .global, definer "c.o" .global]
  have hrun : (linkage {} ms).toOption.any fun r =>
      r.value.isSome && r.diagnostics.countP (isDuplicateOf "x") == 1 := by
    decide
  obtain ⟨⟨v, ds⟩, hr, hcount⟩ := (Option.any_eq_true _ _).mp hrun
  replace hr := except_toOption_eq_some.mp hr
  simp only [Bool.and_eq_true, beq_iff_eq] at hcount
  obtain ⟨k, rfl⟩ := Option.isSome_iff_exists.mp hcount.1
  obtain ⟨k', ds', hr', -, -, -, -, hduplicates, -⟩ :=
    linkage_perm (List.reverse_perm ms).symm (by decide) hr
  exact ⟨k, k', ds, ds', hr, hr', hduplicates "x", hcount.2⟩

end MipsToolchain
