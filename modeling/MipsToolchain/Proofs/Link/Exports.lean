import MipsToolchain.Link.Globals
import MipsToolchain.Proofs.Effects

namespace MipsToolchain

open Diagnostic

def Binding.isAssigned : Binding → Bool
  | unassigned _ => false
  | _ => true

namespace Globals

theorem get?_insert (gs : Globals) (g : Global) (n : Name) :
    (gs.insert g).get? n = if n = g.name then some g else gs.get? n := by
  by_cases hsome : (gs.get? g.name).isSome
  · have hname : ∀ h : Global, (if h.name = g.name then g else h).name = h.name := fun h => by
      split <;> simp [*]
    have hfind : (gs.insert g).get? n =
        (gs.get? n).map fun h => if h.name = g.name then g else h := by
      rw [insert, if_pos hsome, get?, List.find?_map]
      simp only [Function.comp_def, hname]
      rfl
    rw [hfind]
    split
    · next hn =>
      subst hn
      obtain ⟨h, hh⟩ := Option.isSome_iff_exists.mp hsome
      have hh' : h.name = g.name := by simpa using List.find?_some hh
      rw [hh, Option.map_some, if_pos hh']
    · next hn =>
      cases hh : gs.get? n with
      | none => rfl
      | some h =>
        have hh' : h.name = n := by simpa using List.find?_some hh
        rw [Option.map_some, if_neg fun he => hn (hh'.symm.trans he)]
  · rw [insert, if_neg hsome, get?, List.find?_append, List.find?_singleton]
    by_cases hn : n = g.name
    · subst hn
      have hnone : gs.entries.find? (·.name = g.name) = none := by simpa [get?] using hsome
      simp [hnone]
    · rw [if_neg hn, if_neg (by simpa using Ne.symm hn), Option.or_none]
      rfl

def Shared (gs : Globals) : Prop :=
  ∀ n g, gs.get? n = some g → g.symbol.binding = .global ∨ g.symbol.binding = .weak

theorem shared_empty : Shared empty := fun _ _ h => by cases h

theorem Shared.insert {gs : Globals} (h : gs.Shared) {g : Global}
    (hg : g.symbol.binding = .global ∨ g.symbol.binding = .weak) : (gs.insert g).Shared := by
  intro n g' hg'
  rw [get?_insert] at hg'
  split at hg'
  · cases hg'
    exact hg
  · exact h n g' hg'

theorem shared_of_exported {s : Symbol} (hx : s.isExported) (ha : s.binding.isAssigned) :
    s.binding = .global ∨ s.binding = .weak := by
  rw [Symbol.isExported] at hx
  cases hb : s.binding with
  | internal => simp [hb] at hx
  | global => exact .inl rfl
  | weak => exact .inr rfl
  | unassigned c =>
    rw [hb] at ha
    cases ha

/-- What merging a definition can come to. It is the first of its name, or one global definition too
many, or a global one that takes the place of a weak one, or it comes too late. -/
inductive MergesTo (gs : Globals) (g : Global) : Reported Globals → Prop
  | first : gs.get? g.name = none → MergesTo gs g ⟨gs.insert g, []⟩
  | duplicate {prev : Global} {as : List MessageArg} : gs.get? g.name = some prev →
      prev.symbol.binding = .global → g.symbol.binding = .global →
      MergesTo gs g ⟨gs, [.of .duplicateGlobal g.symbol.origin [g.name.text] (.text g.name :: as)]⟩
  | override {prev : Global} : gs.get? g.name = some prev → prev.symbol.binding = .weak →
      g.symbol.binding = .global → MergesTo gs g ⟨gs.insert g, []⟩
  | late {prev : Global} : gs.get? g.name = some prev →
      ¬(prev.symbol.binding = .global ∧ g.symbol.binding = .global) →
      ¬(prev.symbol.binding = .weak ∧ g.symbol.binding = .global) → MergesTo gs g ⟨gs, []⟩

section Merge

variable {gs : Globals} {names : List String} {g : Global} {r : Reported Globals}

theorem mergesTo_of_merge (h : gs.merge names g = .ok r) : gs.MergesTo g r := by
  unfold merge at h
  split at h
  · next hnone =>
    cases Guarded.pure_eq_ok.mp h
    exact .first hnone
  · next prev hprev =>
    split at h
    · next hboth =>
      obtain ⟨_, _, ha, h₁, rfl⟩ := Guarded.bind_eq_ok.mp h
      obtain ⟨first, -, rfl⟩ := Guarded.liftExcept_eq_ok.mp ha
      obtain ⟨_, _, hb, h₂, rfl⟩ := Guarded.bind_eq_ok.mp h₁
      obtain ⟨second, -, rfl⟩ := Guarded.liftExcept_eq_ok.mp hb
      obtain ⟨_, _, hreport, h₃, rfl⟩ := Guarded.bind_eq_ok.mp h₂
      cases Guarded.liftReported_eq_ok.mp hreport
      cases Guarded.pure_eq_ok.mp h₃
      exact .duplicate hprev hboth.1 hboth.2
    · next hboth =>
      split at h
      · next hweak =>
        cases Guarded.pure_eq_ok.mp h
        exact .override hprev hweak.1 hweak.2
      · next hweak =>
        cases Guarded.pure_eq_ok.mp h
        exact .late hprev hboth hweak

theorem MergesTo.value (h : gs.MergesTo g r) :
    r.value = gs.insert g ∨ r.value = gs ∧ (gs.get? g.name).isSome := by
  cases h with
  | first | override => exact .inl rfl
  | duplicate hprev | late hprev => exact .inr ⟨rfl, by rw [hprev]; rfl⟩

/-- What entering a definition keeps is kept by merging it. -/
theorem merge_ensures {p : Globals → Prop} (h : p gs) (hinsert : p (gs.insert g)) :
    (gs.merge names g).Ensures p := by
  intro r hr
  rcases (mergesTo_of_merge hr).value with hv | ⟨hv, -⟩ <;> rw [hv] <;> assumption

theorem shared_merge (h : gs.Shared)
    (hg : g.symbol.binding = .global ∨ g.symbol.binding = .weak) :
    (gs.merge names g).Ensures Shared :=
  merge_ensures h (h.insert hg)

theorem merge_keeps {n : Name} {prev : Global} (h : gs.get? n = some prev)
    (hp : prev.symbol.binding = .global) :
    (gs.merge names g).Ensures fun gs' => gs'.get? n = some prev := by
  intro r hr
  have hinsert : g.name ≠ n → (gs.insert g).get? n = some prev := fun hn => by
    rw [get?_insert, if_neg hn.symm, h]
  cases mergesTo_of_merge hr with
  | first hnone =>
    refine hinsert ?_
    rintro rfl
    rw [h] at hnone
    cases hnone
  | override hother hweak =>
    refine hinsert ?_
    rintro rfl
    cases h.symm.trans hother
    rw [hp] at hweak
    cases hweak
  | duplicate | late => exact h

theorem merge_enters (h : gs.Shared) (hg : g.symbol.binding = .global) :
    (gs.merge names g).Yields fun gs' => gs'.get? g.name = some g := by
  intro r hr herr
  have hinsert : (gs.insert g).get? g.name = some g := by
    rw [get?_insert, if_pos rfl]
  cases mergesTo_of_merge hr with
  | first | override => exact hinsert
  | duplicate => cases herr
  | late hprev hboth hweak =>
    rcases h _ _ hprev with hp | hp
    · exact absurd ⟨hp, hg⟩ hboth
    · exact absurd ⟨hp, hg⟩ hweak

end Merge

section Run

variable {l : Layout} {names : List String} {i : Nat}

theorem addSymbols_keeps {ss : List Symbol} {gs : Globals} {n : Name} {prev : Global}
    (h : gs.get? n = some prev) (hp : prev.symbol.binding = .global) :
    (addSymbols l names i ss gs).Ensures fun gs' => gs'.get? n = some prev := by
  induction ss generalizing gs with
  | nil => exact .pure h
  | cons s ss ih =>
    rw [addSymbols]
    split
    · split
      · exact .skip fun _ => .andThen (merge_keeps h hp) fun _ h' => ih h'
      · exact ih h
    · exact ih h

theorem shared_addSymbols {ss : List Symbol} {gs : Globals} (h : gs.Shared)
    (ha : ∀ s ∈ ss, s.binding.isAssigned) : (addSymbols l names i ss gs).Ensures Shared := by
  induction ss generalizing gs with
  | nil => exact .pure h
  | cons s ss ih =>
    have hrest : ∀ s' ∈ ss, s'.binding.isAssigned := fun s' hs' => ha s' (by simp [hs'])
    rw [addSymbols]
    split
    · split
      · next hx =>
        have hs := shared_of_exported hx (ha s (by simp))
        exact .skip fun _ => .andThen (shared_merge h hs) fun _ h' => ih h' hrest
      · exact ih h hrest
    · exact ih h hrest

/-- What the table says about a global symbol of a module. -/
def Enters (l : Layout) (i : Nat) (n : Name) (a : Address) (gs : Globals) : Prop :=
  ∃ g, gs.get? n = some g ∧ g.symbol.binding = .global ∧ l.resolve i a = .ok g.address

theorem addSymbols_enters {ss : List Symbol} {gs : Globals} (h : gs.Shared)
    (ha : ∀ s ∈ ss, s.binding.isAssigned) {s : Symbol} (hs : s ∈ ss) {a : Address}
    (hd : s.address = some a) (hb : s.binding = .global) :
    (addSymbols l names i ss gs).Yields (Enters l i s.name a) := by
  induction ss generalizing gs with
  | nil => cases hs
  | cons t ss ih =>
    have hrest : ∀ s' ∈ ss, s'.binding.isAssigned := fun s' hs' => ha s' (by simp [hs'])
    rcases List.mem_cons.mp hs with rfl | hs
    · have hx : s.isExported = true := by simp [Symbol.isExported, hb]
      rw [addSymbols, hd]
      dsimp only
      rw [if_pos hx]
      refine .andThen (.ofExcept fun address haddress => haddress) fun address haddress => ?_
      refine .andThen (merge_enters h hb) fun gs' hgs' => .ofEnsures ?_
      exact (addSymbols_keeps hgs' hb).mono fun gs'' hget => ⟨_, hget, hb, haddress⟩
    · rw [addSymbols]
      split
      · split
        · next hx =>
          have ht := shared_of_exported hx (ha t (by simp))
          exact .skip fun _ => .andThen (.ofEnsures (shared_merge h ht)) fun _ h' =>
            ih h' hrest hs
        · exact ih h hrest hs
      · exact ih h hrest hs

theorem addModules_keeps {ms : List Module} {gs : Globals} {n : Name} {a : Address} {j : Nat}
    (h : Enters l j n a gs) : (addModules l names i ms gs).Ensures (Enters l j n a) := by
  induction ms generalizing gs i with
  | nil => exact .pure h
  | cons m ms ih =>
    obtain ⟨g, hg, hb, hresolve⟩ := h
    exact .andThen (addSymbols_keeps hg hb) fun _ h' => ih ⟨g, h', hb, hresolve⟩

theorem addModules_enters {ms : List Module} {gs : Globals} (h : gs.Shared)
    (ha : ∀ m ∈ ms, ∀ s ∈ m.symbols, s.binding.isAssigned) {j : Nat} {m : Module}
    (hm : ms[j]? = some m) {s : Symbol} (hs : s ∈ m.symbols) {a : Address}
    (hd : s.address = some a) (hb : s.binding = .global) :
    (addModules l names i ms gs).Yields (Enters l (i + j) s.name a) := by
  induction ms generalizing gs i j with
  | nil => cases hm
  | cons t ms ih =>
    have ht := ha t (by simp)
    cases j with
    | zero =>
      cases hm
      exact .andThen (addSymbols_enters h ht hs hd hb) fun _ h' => .ofEnsures (addModules_keeps h')
    | succ j =>
      rw [show i + (j + 1) = i + 1 + j by omega]
      exact .andThen (.ofEnsures (shared_addSymbols h ht)) fun _ h' =>
        ih h' (fun t' ht' => ha t' (by simp [ht'])) hm

section Presence

variable {ss : List Symbol} {gs : Globals} {n : Name}

theorem merge_present {g : Global} (h : (gs.get? n).isSome ∨ n = g.name) :
    (gs.merge names g).Ensures fun gs' => (gs'.get? n).isSome := by
  intro r hr
  rcases (mergesTo_of_merge hr).value with hv | ⟨hv, hname⟩
  · rw [hv, get?_insert]
    split
    · rfl
    · next hn => exact h.resolve_right hn
  · rw [hv]
    exact h.elim id fun hn => hn ▸ hname

theorem addSymbols_present (h : (gs.get? n).isSome ∨
      ∃ s ∈ ss, s.name = n ∧ s.isExported ∧ s.address.isSome) :
    (addSymbols l names i ss gs).Ensures fun gs' => (gs'.get? n).isSome := by
  induction ss generalizing gs with
  | nil => exact .pure (h.resolve_right (by simp))
  | cons s ss ih =>
    have hrest : ∀ gs' : Globals, ((gs.get? n).isSome → (gs'.get? n).isSome) →
        (s.isExported → s.address.isSome → s.name = n → (gs'.get? n).isSome) →
        (gs'.get? n).isSome ∨ ∃ t ∈ ss, t.name = n ∧ t.isExported ∧ t.address.isSome := by
      intro gs' hkeep henter
      rcases h with h | ⟨t, ht, hn, hx, ha⟩
      · exact .inl (hkeep h)
      · rcases List.mem_cons.mp ht with rfl | ht
        · exact .inl (henter hx ha hn)
        · exact .inr ⟨t, ht, hn, hx, ha⟩
    rw [addSymbols]
    split
    · split
      · refine .skip fun address => .bind fun r hr => ?_
        exact ih (hrest _ (fun hs => merge_present (.inl hs) r hr) fun _ _ hn =>
          merge_present (.inr hn.symm) r hr)
      · next hx => exact ih (hrest gs id fun hx' => absurd hx' hx)
    · next hnone => exact ih (hrest gs id fun _ ha => by simp [hnone] at ha)

theorem addModules_present {ms : List Module} (h : (gs.get? n).isSome ∨
      ∃ m ∈ ms, ∃ s ∈ m.symbols, s.name = n ∧ s.isExported ∧ s.address.isSome) :
    (addModules l names i ms gs).Ensures fun gs' => (gs'.get? n).isSome := by
  induction ms generalizing gs i with
  | nil => exact .pure (h.resolve_right (by simp))
  | cons m ms ih =>
    rcases h with h | ⟨m', hm', hs⟩
    · exact .andThen (addSymbols_present (.inl h)) fun _ h' => ih (.inl h')
    · rcases List.mem_cons.mp hm' with rfl | hm'
      · exact .andThen (addSymbols_present (.inr hs)) fun _ h' => ih (.inl h')
      · exact .skip fun _ => ih (.inr ⟨m', hm', hs⟩)

theorem ofModules_present {ms : List Module} {m : Module} (hm : m ∈ ms) {s : Symbol}
    (hs : s ∈ m.symbols) (hx : s.isExported) (ha : s.address.isSome) :
    (ofModules l ms).Ensures fun gs => (gs.get? s.name).isSome :=
  addModules_present (.inr ⟨m, hm, s, hs, rfl, hx, ha⟩)

end Presence

section Sources

variable {all : List Module} {gs : Globals}

/-- Whether every entry is an exported definition of its module, with the address that the layout
gives it there. -/
def Sourced (l : Layout) (all : List Module) (gs : Globals) : Prop :=
  ∀ g ∈ gs.entries, ∃ m a, all[g.module]? = some m ∧ g.symbol ∈ m.symbols ∧ g.symbol.isExported ∧
    g.symbol.address = some a ∧ l.resolve g.module a = .ok g.address

theorem mem_insert {g h : Global} (hm : h ∈ (gs.insert g).entries) : h = g ∨ h ∈ gs.entries := by
  unfold insert at hm
  split at hm
  · obtain ⟨k, hk, rfl⟩ := List.mem_map.mp hm
    split
    · exact .inl rfl
    · exact .inr hk
  · exact (List.mem_append.mp hm).symm.imp List.mem_singleton.mp id

theorem mem_merge (gs : Globals) (names : List String) (g : Global) :
    (gs.merge names g).Ensures fun gs' => ∀ h ∈ gs'.entries, h = g ∨ h ∈ gs.entries :=
  merge_ensures (fun _ => .inr) fun _ => mem_insert

theorem sourced_addSymbols {m : Module} (hm : all[i]? = some m) {ss : List Symbol}
    (hss : ∀ s ∈ ss, s ∈ m.symbols) (h : gs.Sourced l all) :
    (addSymbols l names i ss gs).Ensures (Sourced l all) := by
  induction ss generalizing gs with
  | nil => exact .pure h
  | cons s ss ih =>
    obtain ⟨hs, hrest⟩ := List.forall_mem_cons.mp hss
    rw [addSymbols]
    split
    · next a ha =>
      split
      · next hx =>
        refine .andThen (.ofExcept fun address haddress => haddress) fun address haddress => ?_
        refine .andThen (mem_merge gs names _) fun gs' hgs' => ih hrest fun g hg => ?_
        rcases hgs' g hg with rfl | hg
        · exact ⟨m, a, hm, hs, hx, ha, haddress⟩
        · exact h g hg
      · exact ih hrest h
    · exact ih hrest h

theorem sourced_addModules {ms : List Module} (hms : all.drop i = ms) (h : gs.Sourced l all) :
    (addModules l names i ms gs).Ensures (Sourced l all) := by
  induction ms generalizing i gs with
  | nil => exact .pure h
  | cons m ms ih =>
    exact .andThen (sourced_addSymbols (getElem?_of_drop hms) (fun _ hs => hs) h) fun _ h' =>
      ih (drop_succ_of_drop hms) h'

theorem sourced_ofModules (l : Layout) (ms : List Module) :
    (ofModules l ms).Ensures (Sourced l ms) :=
  sourced_addModules List.drop_zero fun _ hg => by cases hg

end Sources

theorem ofModules_enters {ms : List Module}
    (ha : ∀ m ∈ ms, ∀ s ∈ m.symbols, s.binding.isAssigned) {m : Module} (hm : ms[i]? = some m)
    {s : Symbol} (hs : s ∈ m.symbols) {a : Address} (hd : s.address = some a)
    (hb : s.binding = .global) : (ofModules l ms).Yields (Enters l i s.name a) := by
  rw [← Nat.zero_add i]
  exact addModules_enters shared_empty ha hm hs hd hb

end Run

end Globals

end MipsToolchain
