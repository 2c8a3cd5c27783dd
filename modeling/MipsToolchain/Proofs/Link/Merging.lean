import MipsToolchain.Proofs.Link.Exports

namespace MipsToolchain

open Diagnostic

def Diagnostic.isDuplicateOf (n : Name) (d : Diagnostic) : Bool :=
  d.key == Problem.duplicateGlobal.entry.key && d.args.head? == some (.text n)

/-- The definitions of a name with a binding, each with its module, in the order of modules. -/
def definitions (ms : List Module) (n : Name) (b : Binding) : List (Module × Symbol) :=
  ms.flatMap fun m =>
    (m.symbols.filter fun x => x.isDefined && x.name = n && x.binding = b).map (m, ·)

def exports (ms : List Module) : List (Module × Symbol) :=
  ms.flatMap fun m => (m.symbols.filter fun x => x.isDefined && x.isExported).map (m, ·)

theorem exports_cons (m : Module) (ms : List Module) : exports (m :: ms) =
    (m.symbols.filter fun x => x.isDefined && x.isExported).map (m, ·) ++ exports ms :=
  List.flatMap_cons

theorem mem_definitions {ms : List Module} {n : Name} {b : Binding} {d : Module × Symbol} :
    d ∈ definitions ms n b ↔
      d.1 ∈ ms ∧ d.2 ∈ d.1.symbols ∧ d.2.isDefined ∧ d.2.name = n ∧ d.2.binding = b := by
  obtain ⟨m, x⟩ := d
  simp only [definitions, List.mem_flatMap, List.mem_map, List.mem_filter, Bool.and_eq_true,
    decide_eq_true_eq, Prod.mk.injEq]
  constructor
  · rintro ⟨_, hm, _, ⟨hx, ⟨hd, hn⟩, hb⟩, rfl, rfl⟩
    exact ⟨hm, hx, hd, hn, hb⟩
  · rintro ⟨hm, hx, hd, hn, hb⟩
    exact ⟨m, hm, x, ⟨hx, ⟨hd, hn⟩, hb⟩, rfl, rfl⟩

theorem definitions_eq (ms : List Module) (n : Name) {b : Binding} (hb : b ≠ .internal) :
    definitions ms n b = (exports ms).filter fun d => d.2.name = n ∧ d.2.binding = b := by
  simp only [definitions, exports, List.filter_flatMap, List.filter_map, List.filter_filter,
    Function.comp_def]
  refine congrArg ms.flatMap (funext fun m => congrArg _ (List.filter_congr fun x _ => ?_))
  rw [Bool.eq_iff_iff]
  simp only [Bool.and_eq_true, decide_eq_true_eq, Symbol.isExported, bne_iff_ne]
  constructor
  · rintro ⟨⟨hd, hn⟩, rfl⟩
    exact ⟨⟨hn, rfl⟩, hd, hb⟩
  · rintro ⟨⟨hn, rfl⟩, hd, -⟩
    exact ⟨⟨hd, hn⟩, rfl⟩

namespace Globals

def first (seen : List Global) (n : Name) (b : Binding) : Option Global :=
  seen.find? fun g => g.name = n ∧ g.symbol.binding = b

def globalCount (seen : List Global) (n : Name) : Nat :=
  seen.countP fun g => g.name = n ∧ g.symbol.binding = .global

/-- What merging made of definitions: a name stands for its first global definition, or its first
weak one if there is no global one, and each further global one is reported. -/
structure Merged (seen : List Global) (gs : Globals) (ds : List Diagnostic) : Prop where
  table : ∀ n, gs.get? n = (first seen n .global).or (first seen n .weak)
  reports : ∀ n, ds.countP (isDuplicateOf n) = globalCount seen n - 1

theorem merged_empty : Merged [] empty [] := ⟨fun _ => rfl, fun _ => rfl⟩

section Step

variable {seen : List Global} {gs : Globals} {ds : List Diagnostic} {names : List String} {g : Global}

theorem first_append (seen : List Global) (g : Global) (n : Name) (b : Binding) :
    first (seen ++ [g]) n b =
      (first seen n b).or (if g.name = n ∧ g.symbol.binding = b then some g else none) := by
  rw [first, List.find?_append, List.find?_singleton]
  simp only [decide_eq_true_eq]
  rfl

theorem globalCount_append (seen : List Global) (g : Global) (n : Name) :
    globalCount (seen ++ [g]) n =
      globalCount seen n + if g.name = n ∧ g.symbol.binding = .global then 1 else 0 := by
  rw [globalCount, List.countP_append, List.countP_singleton]
  simp only [decide_eq_true_eq]
  rfl

theorem binding_of_first {n : Name} {b : Binding} (h : first seen n b = some g) :
    g.name = n ∧ g.symbol.binding = b := by
  simpa using List.find?_some h

theorem globalCount_pos_iff {n : Name} :
    0 < globalCount seen n ↔ (first seen n .global).isSome := by
  rw [globalCount, List.countP_pos_iff, first, List.find?_isSome]

theorem globalCount_eq_zero {n : Name} (h : first seen n .global = none) :
    globalCount seen n = 0 := by
  refine Nat.eq_zero_of_not_pos fun hpos => ?_
  rw [globalCount_pos_iff, h] at hpos
  cases hpos

/-- The definition that a name stands for is a global one exactly if there is one. -/
theorem Merged.lookup (h : Merged seen gs ds) {n : Name} {prev : Global}
    (hp : gs.get? n = some prev) :
    (prev.symbol.binding = .global ∧ first seen n .global = some prev) ∨
    (prev.symbol.binding = .weak ∧ first seen n .global = none ∧ first seen n .weak = some prev) := by
  rw [h.table, Option.or_eq_some_iff] at hp
  rcases hp with hp | ⟨hnone, hp⟩
  · exact .inl ⟨(binding_of_first hp).2, hp⟩
  · exact .inr ⟨(binding_of_first hp).2, hnone, hp⟩

theorem Merged.step (h : Merged seen gs ds) {gs' : Globals} {es : List Diagnostic}
    (hframe : ∀ n, n ≠ g.name → gs'.get? n = gs.get? n)
    (hquiet : ∀ n, n ≠ g.name → es.countP (isDuplicateOf n) = 0)
    (hentry : gs'.get? g.name =
      (first (seen ++ [g]) g.name .global).or (first (seen ++ [g]) g.name .weak))
    (hcount : globalCount seen g.name - 1 + es.countP (isDuplicateOf g.name) =
      globalCount (seen ++ [g]) g.name - 1) : Merged (seen ++ [g]) gs' (ds ++ es) := by
  refine ⟨fun n => ?_, fun n => ?_⟩
  · by_cases hn : n = g.name
    · rw [hn, hentry]
    · rw [hframe n hn, h.table, first_append, first_append, if_neg fun hc => hn hc.1.symm,
        if_neg fun hc => hn hc.1.symm, Option.or_none, Option.or_none]
  · rw [List.countP_append, h.reports]
    by_cases hn : n = g.name
    · rw [hn, hcount]
    · rw [hquiet n hn, globalCount_append, if_neg fun hc => hn hc.1.symm]
      rfl

theorem merged_merge (h : Merged seen gs ds)
    (hg : g.symbol.binding = .global ∨ g.symbol.binding = .weak) {r : Reported Globals}
    (hr : gs.merge names g = .ok r) : Merged (seen ++ [g]) r.value (ds ++ r.diagnostics) := by
  have hframe : ∀ n, n ≠ g.name → (gs.insert g).get? n = gs.get? n := fun n hn => by
    rw [get?_insert, if_neg hn]
  have hentry : (gs.insert g).get? g.name = some g := by
    rw [get?_insert, if_pos rfl]
  cases mergesTo_of_merge hr with
  | first hnone =>
    rw [h.table, Option.or_eq_none_iff] at hnone
    refine h.step hframe (fun _ _ => rfl) ?_ ?_
    · rcases hg with hg | hg <;> simp [hentry, first_append, hnone, hg]
    · rw [globalCount_append, globalCount_eq_zero hnone.1]
      split <;> rfl
  | duplicate hprev hp hg =>
    obtain ⟨-, hfirst⟩ | ⟨hweak, -⟩ := h.lookup hprev
    · refine h.step (fun _ _ => rfl) (fun n hn => ?_) ?_ ?_
      · simp [isDuplicateOf, Diagnostic.of, Ne.symm hn]
      · simp [hprev, first_append, hfirst]
      · have hpos : 0 < globalCount seen g.name := by
          rw [globalCount_pos_iff, hfirst]
          rfl
        rw [globalCount_append, if_pos ⟨rfl, hg⟩]
        simp [isDuplicateOf, Diagnostic.of]
        omega
    · cases hp.symm.trans hweak
  | override hprev hp hg =>
    obtain ⟨hglobal, -⟩ | ⟨-, hnone, -⟩ := h.lookup hprev
    · cases hp.symm.trans hglobal
    · refine h.step hframe (fun _ _ => rfl) ?_ ?_
      · simp [hentry, first_append, hnone, hg]
      · simp [globalCount_append, globalCount_eq_zero hnone, hg]
  | late hprev hboth hneither =>
    obtain ⟨hp, hfirst⟩ | ⟨hp, hnone, hfirst⟩ := h.lookup hprev
    · have hweak := hg.resolve_left fun hg => hboth ⟨hp, hg⟩
      refine h.step (fun _ _ => rfl) (fun _ _ => rfl) ?_ ?_
      · simp [hprev, first_append, hfirst]
      · simp [globalCount_append, hweak]
    · have hweak := hg.resolve_left fun hg => hneither ⟨hp, hg⟩
      refine h.step (fun _ _ => rfl) (fun _ _ => rfl) ?_ ?_
      · simp [hprev, first_append, hnone, hfirst, hweak]
      · simp [globalCount_append, hweak]

end Step

section Run

variable {l : Layout} {names : List String} {seen : List Global} {gs : Globals}
  {ds : List Diagnostic}

theorem merged_addSymbols {i : Nat} {ss : List Symbol} {r : Reported Globals}
    (h : Merged seen gs ds) (ha : ∀ x ∈ ss, x.binding.isAssigned)
    (hr : addSymbols l names i ss gs = .ok r) :
    ∃ new, Merged (seen ++ new) r.value (ds ++ r.diagnostics) ∧
      new.map (fun g => (g.module, g.symbol)) =
        (ss.filter fun x => x.isDefined && x.isExported).map (i, ·) := by
  -- Definitions that are not exported leave no trace, so that what was seen grows by the exported
  -- ones.
  induction ss generalizing seen gs ds r with
  | nil =>
    cases Guarded.pure_eq_ok.mp hr
    exact ⟨[], by simpa using h, rfl⟩
  | cons x ss ih =>
    obtain ⟨hx, hss⟩ := List.forall_mem_cons.mp ha
    rw [addSymbols] at hr
    split at hr
    · next a haddress =>
      split at hr
      · next hexported =>
        obtain ⟨_, c, hv, hc, rfl⟩ := Guarded.bind_eq_ok.mp hr
        obtain ⟨address, -, rfl⟩ := Guarded.liftExcept_eq_ok.mp hv
        obtain ⟨_, d, hmerge, hd, rfl⟩ := Guarded.bind_eq_ok.mp hc
        obtain ⟨new, hnew, hsymbols⟩ :=
          ih (merged_merge h (shared_of_exported hexported hx) hmerge) hss hd
        refine ⟨⟨x, address, i⟩ :: new, ?_, ?_⟩
        · simpa using hnew
        · rw [List.filter_cons_of_pos (by simp [Symbol.isDefined, haddress, hexported]),
            List.map_cons, List.map_cons, hsymbols]
      · next hlocal =>
        obtain ⟨new, hnew, hsymbols⟩ := ih h hss hr
        refine ⟨new, hnew, ?_⟩
        rw [List.filter_cons_of_neg (by simp [hlocal]), hsymbols]
    · next hundefined =>
      obtain ⟨new, hnew, hsymbols⟩ := ih h hss hr
      refine ⟨new, hnew, ?_⟩
      rw [List.filter_cons_of_neg (by simp [Symbol.isDefined, hundefined]), hsymbols]

def source (ms : List Module) (g : Global) : Option Module × Symbol :=
  (ms[g.module]?, g.symbol)

theorem merged_addModules {all ms : List Module} {i : Nat} {r : Reported Globals}
    (h : Merged seen gs ds) (ha : ∀ m ∈ ms, ∀ x ∈ m.symbols, x.binding.isAssigned)
    (hms : all.drop i = ms) (hr : addModules l names i ms gs = .ok r) :
    ∃ new, Merged (seen ++ new) r.value (ds ++ r.diagnostics) ∧
      new.map (source all) = (exports ms).map fun d => (some d.1, d.2) := by
  induction ms generalizing i seen gs ds r with
  | nil =>
    cases Guarded.pure_eq_ok.mp hr
    exact ⟨[], by simpa using h, rfl⟩
  | cons m ms ih =>
    obtain ⟨hm, hrest⟩ := List.forall_mem_cons.mp ha
    obtain ⟨b, c, hb, hc, rfl⟩ := Guarded.bind_eq_ok.mp hr
    obtain ⟨new, hnew, hsymbols⟩ := merged_addSymbols h hm hb
    have hget : all[i]? = some m := getElem?_of_drop hms
    obtain ⟨more, hmore, hsources⟩ := ih hnew hrest (drop_succ_of_drop hms) hc
    refine ⟨new ++ more, by simpa using hmore, ?_⟩
    have hfirst : new.map (source all) =
        (new.map fun g => (g.module, g.symbol)).map fun p => (all[p.1]?, p.2) := by
      rw [List.map_map]
      rfl
    rw [List.map_append, hsources, hfirst, hsymbols, exports_cons, List.map_append,
      List.map_map, List.map_map]
    simp only [Function.comp_def, hget]

end Run

/-- What the table and the reports of merging say about modules. -/
structure Merges (ms : List Module) (gs : Globals) (ds : List Diagnostic) : Prop where
  names : ∀ n, (gs.get? n).isSome ↔
    ∃ m ∈ ms, ∃ x ∈ m.symbols, x.isDefined ∧ x.isExported ∧ x.name = n
  bindings : ∀ n g, gs.get? n = some g →
    g.symbol.binding = if definitions ms n .global = [] then .weak else .global
  sources : ∀ n g, gs.get? n = some g → ∃ m, ms[g.module]? = some m ∧
    (definitions ms n g.symbol.binding).head? = some (m, g.symbol)
  duplicates : ∀ n, ds.countP (isDuplicateOf n) = (definitions ms n .global).length - 1

section Sources

variable {ms : List Module} {seen : List Global}

theorem head?_definitions {b : Binding} (hb : b ≠ .internal) (n : Name)
    (h : seen.map (source ms) = (exports ms).map fun d => (some d.1, d.2)) :
    (first seen n b).map (source ms) =
      (definitions ms n b).head?.map fun d => (some d.1, d.2) := by
  have hfind := congrArg (List.find? fun p => decide (p.2.name = n ∧ p.2.binding = b)) h
  rw [List.find?_map, List.find?_map] at hfind
  rw [definitions_eq ms n hb, List.head?_filter]
  exact hfind

theorem length_definitions (n : Name)
    (h : seen.map (source ms) = (exports ms).map fun d => (some d.1, d.2)) :
    (definitions ms n .global).length = globalCount seen n := by
  have hcount := congrArg (List.countP fun p => decide (p.2.name = n ∧ p.2.binding = .global)) h
  rw [List.countP_map, List.countP_map] at hcount
  rw [definitions_eq ms n (by decide), ← List.countP_eq_length_filter]
  exact hcount.symm

theorem Merged.merges {gs : Globals} {ds : List Diagnostic} (h : Merged seen gs ds)
    (ha : ∀ m ∈ ms, ∀ x ∈ m.symbols, x.binding.isAssigned)
    (hs : seen.map (source ms) = (exports ms).map fun d => (some d.1, d.2)) :
    Merges ms gs ds := by
  -- An entry is the first global definition if there is one, and the first weak one otherwise.
  have hempty : ∀ n, definitions ms n .global = [] ↔ first seen n .global = none := fun n => by
    rw [← List.head?_eq_none_iff, ← Option.map_eq_none_iff, ← head?_definitions (by decide) n hs,
      Option.map_eq_none_iff]
  refine ⟨fun n => ?_, fun n g hg => ?_, fun n g hg => ?_, fun n => ?_⟩
  · have hsome : ∀ b ≠ .internal, (first seen n b).isSome ↔ ∃ d, d ∈ definitions ms n b := by
      intro b hb
      have hhead := congrArg Option.isSome (head?_definitions hb n hs)
      rw [Option.isSome_map, Option.isSome_map] at hhead
      rw [hhead, List.isSome_head?, ← List.isEmpty_eq_false_iff, List.isEmpty_eq_false_iff_exists_mem]
    rw [h.table, Option.isSome_or, Bool.or_eq_true, hsome _ (by decide), hsome _ (by decide)]
    constructor
    · rintro (⟨d, hd⟩ | ⟨d, hd⟩)
      all_goals
        obtain ⟨hm, hx, hdefined, hn, hb⟩ := mem_definitions.mp hd
        exact ⟨_, hm, _, hx, hdefined, by simp [Symbol.isExported, hb], hn⟩
    · rintro ⟨m, hm, x, hx, hdefined, hexported, hn⟩
      refine (shared_of_exported hexported (ha m hm x hx)).imp (fun hb => ?_) fun hb => ?_
      all_goals exact ⟨(m, x), mem_definitions.mpr ⟨hm, hx, hdefined, hn, hb⟩⟩
  · obtain ⟨hb, hfirst⟩ | ⟨hb, hnone, -⟩ := h.lookup hg
    · rw [hb, if_neg fun he => ?_]
      rw [(hempty n).mp he] at hfirst
      cases hfirst
    · rw [hb, if_pos ((hempty n).mpr hnone)]
  · have hfirst : first seen n g.symbol.binding = some g := by
      obtain ⟨hb, hfirst⟩ | ⟨hb, -, hfirst⟩ := h.lookup hg <;> rw [hb, hfirst]
    have hb : g.symbol.binding ≠ .internal := by
      obtain ⟨hb, -⟩ | ⟨hb, -⟩ := h.lookup hg <;> simp [hb]
    have hhead := head?_definitions hb n hs
    rw [hfirst, Option.map_some] at hhead
    obtain ⟨⟨m, x⟩, hd, hsource⟩ := Option.map_eq_some_iff.mp hhead.symm
    obtain ⟨hm, rfl⟩ := Prod.mk.inj hsource
    exact ⟨m, hm.symm, hd⟩
  · rw [h.reports, length_definitions n hs]

end Sources

theorem merges_ofModules {l : Layout} {ms : List Module}
    (ha : ∀ m ∈ ms, ∀ x ∈ m.symbols, x.binding.isAssigned) {r : Reported Globals}
    (hr : ofModules l ms = .ok r) : Merges ms r.value r.diagnostics := by
  obtain ⟨seen, hmerged, hsources⟩ := merged_addModules merged_empty ha List.drop_zero hr
  exact Merged.merges hmerged ha hsources

end Globals

end MipsToolchain
