import MipsToolchain.Proofs.Completion
import MipsToolchain.Proofs.Link.Memory

namespace MipsToolchain

open Diagnostic Guarded MipsToolchain.Module

namespace Module

/-- A place where a word can be asked for. Either it is there, or it is noticed that it is not. -/
def CanRead (m : Module) (loc : Address) : Prop :=
  ∀ s, m.wordAt loc = .ok s → loc.offset + 4 ≤ s.length

variable {m m' : Module} {loc : Address}

theorem CanRead.of_alike (h : m.CanRead loc) (ha : Alike m m') : m'.CanRead loc := by
  intro s' hs'
  have hshape := ha.section? loc.sectionName
  rw [wordAt_eq_ok hs'] at hshape
  obtain ⟨s, hs, hsame⟩ := Option.map_eq_some_iff.mp hshape.symm
  simp only [Section.shape, Prod.mk.injEq] at hsame
  rw [← hsame.2.2.2]
  refine h s ?_
  unfold wordAt at hs' ⊢
  simp only [wordAt_eq_ok hs', hs, hsame.2.2.2] at hs' ⊢
  split at hs'
  · cases hs'
  · next hin => rw [if_neg hin]

theorem CanRead.exists_bytes (h : m.CanRead loc) {s : Section} (hs : m.wordAt loc = .ok s) :
    ∃ bs, wordBytes? s loc.value.toInt.toNat = some bs :=
  ⟨_, if_pos (h s hs)⟩

theorem readWord_ne_error (h : m.CanRead loc) (f : Fault) : (m.readWord loc).run ≠ .error f := by
  intro hf
  rcases run_bind_eq_error.mp hf with hf | ⟨s, hs, hf⟩
  · cases hf
  · obtain ⟨bs, hbs⟩ := h.exists_bytes (Except.ok.inj hs)
    rw [hbs] at hf
    cases hf

theorem writeWord_ne_error (h : m.CanRead loc) (w : UInt32) (f : Fault) :
    (m.writeWord loc w).run ≠ .error f := by
  intro hf
  rcases run_bind_eq_error.mp hf with hf | ⟨s, hs, hf⟩
  · cases hf
  · obtain ⟨bs, hbs⟩ := h.exists_bytes (Except.ok.inj hs)
    dsimp only at hf
    rw [hbs] at hf
    cases hf

structure CanPatch (m : Module) (r : Reference) : Prop where
  assigned : r.kind.isAssigned
  word : m.CanRead r.location
  lower : r.kind = .high16 → m.CanRead (r.location.add 4)

theorem CanPatch.of_alike {r : Reference} (h : m.CanPatch r) (ha : Alike m m') : m'.CanPatch r :=
  ⟨h.assigned, h.word.of_alike ha, fun hk => (h.lower hk).of_alike ha⟩

theorem relocatedWord_ne_error {r : Reference} (h : m.CanPatch r) (w : UInt32) (delta : Int64)
    (f : Fault) : (m.relocatedWord r w delta).run ≠ .error f := by
  intro hf
  unfold relocatedWord at hf
  split at hf
  · cases hf
  · cases hf
  · next hk =>
    rcases run_bind_eq_error.mp hf with hf | ⟨lower, -, hf⟩
    · exact readWord_ne_error (h.lower hk) f (run_adapt_eq_error.mp hf)
    · cases hf
  · split at hf <;> cases hf
  · dsimp only at hf
    split at hf
    · cases hf
    · split at hf <;> cases hf
  · next hk =>
    have hassigned := h.assigned
    rw [hk] at hassigned
    cases hassigned

theorem relocate_ne_error {r : Reference} (h : m.CanPatch r) (delta : Int64) (f : Fault) :
    (m.relocate r delta).run ≠ .error f := by
  intro hf
  rcases run_bind_eq_error.mp hf with hf | ⟨w, -, hf⟩
  · exact readWord_ne_error h.word f (run_adapt_eq_error.mp hf)
  · rcases run_bind_eq_error.mp hf with hf | ⟨w', -, hf⟩
    · exact relocatedWord_ne_error h w delta f hf
    · exact writeWord_ne_error h.word w' f (run_adapt_eq_error.mp hf)

/-- What linking relies on. Everything that a module says about places is about sections that the
layout has, and references are about words that can be asked for. -/
structure Linkable (m : Module) : Prop where
  alignable : m.Alignable
  placed : ∀ s ∈ m.symbols, ∀ a, s.address = some a → a.isRelocatable → m.isSectionName a.sectionName
  located : ∀ r ∈ m.references, r.location.isRelocatable → m.isSectionName r.location.sectionName
  patchable : ∀ r ∈ m.references, m.CanPatch r

end Module

theorem except_isOk_of_ne_error {ε α : Type} {x : Except ε α} (h : ∀ e, x ≠ .error e) :
    ∃ a, x = .ok a := by
  cases x with
  | error e => exact absurd rfl (h e)
  | ok a => exact ⟨a, rfl⟩

theorem Module.Alike.isSectionName {m m' : Module} (h : Alike m m') (n : Name) :
    m'.isSectionName n = m.isSectionName n := by
  have hsome := congrArg Option.isSome (h.section? n)
  rw [Option.isSome_map, Option.isSome_map] at hsome
  rw [Module.isSectionName, Module.isSectionName, hsome]

theorem resolveReference_alike {m m' : Module} (h : Alike m m') {l : Layout} {gs : Globals} {i : Nat}
    {r : Reference} : resolveReference l gs i m' r = resolveReference l gs i m r := by
  unfold resolveReference symbol?
  rw [h.isSectionName, h.symbols]

namespace Layout

def Covers (l : Layout) (m : Module) : Prop := ∀ n, m.isSectionName n → (l.section? n).isSome

theorem covers_ofModules (l : LinkSettings) {ms : List Module} {m : Module} (hm : m ∈ ms) :
    (ofModules l ms).Covers m := by
  intro n hn
  have hname : n ∈ sectionNames ms := by
    unfold isSectionName at hn
    rw [Bool.or_eq_true, decide_eq_true_eq] at hn
    rcases hn with hn | hn
    · obtain ⟨s, hs⟩ := Option.isSome_iff_exists.mp hn
      exact mem_sectionNames hm hs
    · exact (nodup_addNames _ _ (by decide)).2 n (.inl hn)
  obtain ⟨out, -, -, hout⟩ := section?_ofModules l hname
  rw [hout]
  rfl

/-- Whether every section has a place for each of so many modules. -/
def Serves (l : Layout) (count : Nat) : Prop := ∀ out ∈ l.sections, out.offsets.length = count

theorem serves_ofModules (l : LinkSettings) (ms : List Module) :
    (ofModules l ms).Serves ms.length := fun _ => length_offsets

variable {l : Layout} {m : Module} {count i : Nat}

theorem Serves.resolve_isOk (h : l.Serves count) (hi : i < count) {a : Address}
    (ha : a.isRelocatable → (l.section? a.sectionName).isSome) : ∃ v, l.resolve i a = .ok v := by
  by_cases hrel : a.isRelocatable
  · obtain ⟨out, hout⟩ := Option.isSome_iff_exists.mp (ha hrel)
    have hlen := h out (mem_of_section? hout).1
    exact ⟨_, (resolve_eq_ok hrel).mpr
      ⟨out, _, hout, List.getElem?_eq_getElem (hlen ▸ hi), rfl⟩⟩
  · exact ⟨a.value, if_neg hrel⟩

theorem Covers.resolveReference_isOk (h : l.Covers m) (hl : l.Serves count) (hi : i < count)
    (hm : m.Linkable) (gs : Globals) (r : Reference) :
    ∃ t, resolveReference l gs i m r = .ok t := by
  have haddress : ∀ s, m.symbol? r.symbol = some s → ∀ a, s.address = some a →
      ∃ t, (l.resolve i a).map some = .ok t := by
    intro s hs a ha
    obtain ⟨v, hv⟩ := hl.resolve_isOk hi fun hrel =>
      h _ (hm.placed s (List.mem_of_find?_eq_some hs) a ha hrel)
    exact ⟨some v, except_map_eq_ok.mpr ⟨v, hv, rfl⟩⟩
  unfold resolveReference
  split
  · next hn =>
    obtain ⟨v, hv⟩ := hl.resolve_isOk hi (a := .relative r.symbol 0) fun _ => h _ hn
    exact ⟨some v, except_map_eq_ok.mpr ⟨v, hv, rfl⟩⟩
  · split
    · exact ⟨_, rfl⟩
    · next s hs =>
      split
      · next ha _ => exact haddress s hs _ ha
      · exact ⟨_, rfl⟩
      · next ha _ _ => exact haddress s hs _ ha
      · exact ⟨_, rfl⟩

end Layout

section Phases

variable {l : Layout} {m : Module} {names : List String} {gs : Globals} {g : Global} {i : Nat}

/-- Whether every entry is of one of so many modules. -/
def Globals.Indexed (gs : Globals) (count : Nat) : Prop := ∀ g ∈ gs.entries, g.module < count

theorem merge_completes (h : gs.Indexed names.length) (hg : g.module < names.length) :
    (gs.merge names g).Completes (·.Indexed names.length) := by
  have hname : ∀ k, k < names.length →
      (liftM (elementAt names k) : Guarded String).Completes fun _ => True :=
    fun k hk => .ofExcept ⟨_, elementAt_of_lt hk, trivial⟩
  have hinsert : (gs.insert g).Indexed names.length := fun g' hg' =>
    (Globals.mem_insert hg').elim (fun he => he ▸ hg) (h g')
  unfold Globals.merge
  split
  · exact .pure hinsert
  · next prev hprev =>
    split
    · refine .andThen (hname _ (h prev (List.mem_of_find?_eq_some hprev))) fun first _ => ?_
      exact .andThen (hname _ hg) fun second _ => .reported (.pure h)
    · split
      · exact .pure hinsert
      · exact .pure h

theorem addSymbols_completes (h : l.Covers m) (hl : l.Serves names.length) (hi : i < names.length)
    {ss : List Symbol}
    (hss : ∀ s ∈ ss, ∀ a, s.address = some a → a.isRelocatable → m.isSectionName a.sectionName)
    (hgs : gs.Indexed names.length) :
    (Globals.addSymbols l names i ss gs).Completes (·.Indexed names.length) := by
  induction ss generalizing gs with
  | nil => exact .pure hgs
  | cons s ss ih =>
    obtain ⟨hs, hrest⟩ := List.forall_mem_cons.mp hss
    unfold Globals.addSymbols
    split
    · next a ha =>
      split
      · obtain ⟨v, hv⟩ := hl.resolve_isOk hi fun hrel => h _ (hs a ha hrel)
        refine .andThen (p := fun _ => True) (.ofExcept ⟨v, hv, trivial⟩) fun address _ => ?_
        exact .andThen (merge_completes hgs hi) fun gs' hgs' => ih hrest hgs'
      · exact ih hrest hgs
    · exact ih hrest hgs

theorem addModules_completes (hl : l.Serves names.length) {ms : List Module}
    (h : ∀ m ∈ ms, l.Covers m ∧ m.Linkable) (hi : i + ms.length ≤ names.length)
    (hgs : gs.Indexed names.length) :
    (Globals.addModules l names i ms gs).Completes fun _ => True := by
  induction ms generalizing i gs with
  | nil => exact .pure trivial
  | cons m ms ih =>
    obtain ⟨⟨hcovers, hm⟩, hms⟩ := List.forall_mem_cons.mp h
    rw [List.length_cons] at hi
    exact .andThen (addSymbols_completes hcovers hl (by omega) hm.placed hgs) fun gs' hgs' =>
      ih hms (by omega) hgs'

theorem ofModules_completes {ms : List Module} (hl : l.Serves ms.length)
    (h : ∀ m ∈ ms, l.Covers m ∧ m.Linkable) : (Globals.ofModules l ms).Completes fun _ => True := by
  refine addModules_completes ?_ h (by simp) fun _ hg => by cases hg
  rw [List.length_map]
  exact hl

variable {count : Nat}

/-- A reference can be linked while the words of its module change. -/
theorem linkReference_completes (h : l.Covers m) (hl : l.Serves count) (hi : i < count)
    (hm : m.Linkable) (gs : Globals) {m' : Module} (ha : Alike m m') {r : Reference}
    (hr : r ∈ m.references) : (linkReference l gs i m' r).Completes (Alike m) := by
  obtain ⟨t, ht⟩ := h.resolveReference_isOk hl hi hm gs r
  rw [← resolveReference_alike ha] at ht
  have hdelta : ∀ target, ∃ delta, relocationDelta l i r target = .ok delta := by
    intro target
    obtain ⟨v, hv⟩ := hl.resolve_isOk hi fun hrel => h _ (hm.located r hr hrel)
    unfold relocationDelta
    split
    · exact ⟨_, except_map_eq_ok.mpr ⟨v, hv, rfl⟩⟩
    · exact ⟨_, rfl⟩
  have hpatch := (hm.patchable r hr).of_alike ha
  refine .andThen (p := fun _ => True) (.ofExcept ⟨t, ht, trivial⟩) fun target _ => ?_
  split
  · exact .reported (.pure ha)
  · next target =>
    obtain ⟨delta, hdelta⟩ := hdelta target
    refine .andThen (p := fun _ => True) (.ofExcept ⟨delta, hdelta, trivial⟩) fun delta _ => ?_
    obtain ⟨y, hy⟩ := except_isOk_of_ne_error (relocate_ne_error hpatch delta)
    refine .andThen (p := fun z => (m'.relocate r delta).run = .ok z) (.ofExcept ⟨y, hy, hy⟩)
      fun z hz => ?_
    split
    · exact .pure (ha.trans (alike_relocate hz))
    · exact .reported (.pure ha)

theorem linkReferences_completes (h : l.Covers m) (hl : l.Serves count) (hi : i < count)
    (hm : m.Linkable) (gs : Globals) {m' : Module} (ha : Alike m m') {rs : List Reference}
    (hrs : ∀ r ∈ rs, r ∈ m.references) :
    (linkReferences l gs i rs m').Completes fun _ => True := by
  induction rs generalizing m' with
  | nil => exact .pure trivial
  | cons r rs ih =>
    obtain ⟨hr, hrest⟩ := List.forall_mem_cons.mp hrs
    exact .andThen (linkReference_completes h hl hi hm gs ha hr) fun m₁ h₁ => ih h₁ hrest

theorem linkModules_completes (hl : l.Serves count) (gs : Globals) {ms : List Module}
    (h : ∀ m ∈ ms, l.Covers m ∧ m.Linkable) (hi : i + ms.length ≤ count) :
    (linkModules l gs i ms).Completes fun _ => True := by
  induction ms generalizing i with
  | nil => exact .pure trivial
  | cons m ms ih =>
    obtain ⟨⟨hcovers, hm⟩, hms⟩ := List.forall_mem_cons.mp h
    rw [List.length_cons] at hi
    refine .andThen (linkReferences_completes hcovers hl (by omega) hm gs (.refl m) fun _ => id)
      fun m' _ => ?_
    exact .andThen (ih hms (by omega)) fun ms' _ => .pure trivial

end Phases

theorem link_completes (s : Settings) {ms : List Module} (h : ∀ m ∈ ms, m.Linkable) :
    (link s ms).Completes fun _ => True := by
  have hcovers : ∀ m ∈ ms, (Layout.ofModules s.link ms).Covers m ∧ m.Linkable := fun m hm =>
    ⟨Layout.covers_ofModules s.link hm, h m hm⟩
  have hserves := Layout.serves_ofModules s.link ms
  have hlinkage : (linkage s ms).Completes fun _ => True := by
    refine .reported ?_
    split
    · refine .reported (.andThen (ofModules_completes hserves hcovers) fun gs _ => ?_)
      refine .andThen (linkModules_completes hserves gs hcovers (by simp)) fun out _ => ?_
      exact .reported (.pure trivial)
    · exact .pure trivial
  obtain ⟨k, hk, -⟩ := hlinkage
  cases hl : link s ms with
  | ok r => exact ⟨r, rfl, trivial⟩
  | error f =>
    have hf := link_fault hl fun m hm => (h m hm).alignable
    rw [hk] at hf
    cases hf

end MipsToolchain
