import MipsToolchain.Proofs.Link.Copying

namespace MipsToolchain

open MipsToolchain.Module OutputSection

/-- A module of standard sections that are aligned to words, unless they are empty. -/
structure Module.Tidy (m : Module) : Prop where
  standard : ∀ s ∈ m.sections, s.name ∈ StandardSection.names
  flags : ∀ s ∈ m.sections, s.flags = standardFlags s.name
  alignment : ∀ s ∈ m.sections, s.alignment = if s.length = 0 then 0 else 2

namespace Module

variable {m m' : Module} {n : Name}

instance (m : Module) : Decidable m.Tidy :=
  decidable_of_iff ((∀ s ∈ m.sections, s.name ∈ StandardSection.names) ∧
      (∀ s ∈ m.sections, s.flags = standardFlags s.name) ∧
      ∀ s ∈ m.sections, s.alignment = if s.length = 0 then 0 else 2)
    ⟨fun h => ⟨h.1, h.2.1, h.2.2⟩, fun h => ⟨h.standard, h.flags, h.alignment⟩⟩

theorem Tidy.of_alike (h : m.Tidy) (ha : Alike m m') : m'.Tidy := by
  have hshape : ∀ s' ∈ m'.sections, ∃ s ∈ m.sections, s.shape = s'.shape := fun s' hs' => by
    have hmem : s'.shape ∈ m'.sections.map Section.shape := List.mem_map_of_mem hs'
    rw [ha.shapes] at hmem
    exact List.mem_map.mp hmem
  have hfields : ∀ s' ∈ m'.sections, ∃ s ∈ m.sections, s.name = s'.name ∧ s.flags = s'.flags ∧
      s.alignment = s'.alignment ∧ s.length = s'.length := fun s' hs' => by
    obtain ⟨s, hs, heq⟩ := hshape s' hs'
    simp only [Section.shape, Prod.mk.injEq] at heq
    exact ⟨s, hs, heq⟩
  refine ⟨fun s' hs' => ?_, fun s' hs' => ?_, fun s' hs' => ?_⟩
  · obtain ⟨s, hs, hname, -⟩ := hfields s' hs'
    exact hname ▸ h.standard s hs
  · obtain ⟨s, hs, hname, hflags, -⟩ := hfields s' hs'
    rw [← hname, ← hflags, h.flags s hs]
  · obtain ⟨s, hs, -, -, halign, hlen⟩ := hfields s' hs'
    rw [← halign, ← hlen, h.alignment s hs]

theorem Tidy.alignable (h : m.Tidy) : m.Alignable := fun s hs => by
  rw [h.alignment s hs]
  split <;> decide

def startFrom (cursor length : Nat) : Nat := if length = 0 then cursor else alignUp cursor 2

theorem Tidy.alignUp (h : m.Tidy) {s : Section} (hs : m.section? n = some s) (cursor : Nat) :
    MipsToolchain.alignUp cursor s.alignment = startFrom cursor (m.offset n) := by
  rw [h.alignment s (List.mem_of_find?_eq_some hs), offset_of_section? hs, startFrom]
  split
  · exact alignUp_zero cursor
  · rfl

end Module

namespace Layout

variable {ms ms' : List Module}

def startsFrom : Nat → List Nat → List Nat × Nat
  | cursor, [] => ([], cursor)
  | cursor, k :: ks =>
    let start := startFrom cursor k
    let r := startsFrom (start + k) ks
    (start :: r.1, r.2)

theorem contributions_of_tidy (h : ∀ m ∈ ms, m.Tidy) (n : Name) (cursor : Nat) :
    contributions n cursor ms = startsFrom cursor (ms.map (·.offset n)) := by
  induction ms generalizing cursor with
  | nil => rfl
  | cons m ms ih =>
    obtain ⟨hm, hms⟩ := List.forall_mem_cons.mp h
    rw [List.map_cons, startsFrom, contributions]
    cases hs : m.section? n with
    | none =>
      dsimp only
      rw [ih hms, offset_of_none hs, startFrom, if_pos rfl, Nat.add_zero]
    | some s =>
      dsimp only
      rw [ih hms, hm.alignUp hs, offset_of_section? hs]

theorem partBytes_cons {m : Module} (h : m.Tidy) (n : Name) (cursor : Nat) :
    partBytes n cursor (m :: ms) =
      List.replicate (startFrom cursor (m.offset n) - cursor) 0 ++ (m.contentsOf n ++
        partBytes n (startFrom cursor (m.offset n) + m.offset n) ms) := by
  rw [partBytes]
  cases hs : m.section? n with
  | none => simp [offset_of_none hs, contentsOf, hs, startFrom]
  | some s =>
    dsimp only
    rw [h.alignUp hs, contentsOf_eq hs, offset_of_section? hs]

theorem partBytes_of_tidy (h : ∀ m ∈ ms, m.Tidy) (h' : ∀ m ∈ ms', m.Tidy) (n : Name)
    (hc : ms'.map (·.contentsOf n) = ms.map (·.contentsOf n)) (cursor : Nat) :
    partBytes n cursor ms' = partBytes n cursor ms := by
  induction ms generalizing ms' cursor with
  | nil => rw [List.map_eq_nil_iff.mp hc]
  | cons m ms ih =>
    obtain ⟨m', rest, rfl, hm, hrest⟩ := List.map_eq_cons_iff.mp hc
    obtain ⟨htidy, htidies⟩ := List.forall_mem_cons.mp h
    obtain ⟨htidy', htidies'⟩ := List.forall_mem_cons.mp h'
    have hoffset : m'.offset n = m.offset n := by
      rw [← length_contentsOf, ← length_contentsOf, hm]
    rw [partBytes_cons htidy, partBytes_cons htidy', hm, hoffset, ih htidies htidies' hrest]

theorem alignment_of_tidy (h : ∀ m ∈ ms, m.Tidy) (n : Name) (a : Nat) :
    (ms.filterMap (·.section? n)).foldl (fun a s => max a s.alignment) a =
      (ms.map (·.offset n)).foldl (fun a k => max a (if k = 0 then 0 else 2)) a := by
  induction ms generalizing a with
  | nil => rfl
  | cons m ms ih =>
    obtain ⟨hm, hms⟩ := List.forall_mem_cons.mp h
    rw [List.map_cons, List.foldl_cons, ← ih hms]
    cases hs : m.section? n with
    | none =>
      rw [List.filterMap_cons]
      simp only [hs, offset_of_none hs, if_true, Nat.max_zero]
    | some s =>
      rw [List.filterMap_cons]
      simp only [hs, List.foldl_cons, offset_of_section? hs,
        hm.alignment s (List.mem_of_find?_eq_some hs)]

theorem flags_of_tidy (h : ∀ m ∈ ms, m.Tidy) (n : Name) :
    ((ms.filterMap (·.section? n)).head?.map (·.flags)).getD (standardFlags n) =
      standardFlags n := by
  cases hhead : (ms.filterMap (·.section? n)).head? with
  | none => rfl
  | some s =>
    obtain ⟨m, hm, hs⟩ := List.mem_filterMap.mp (List.mem_of_head? hhead)
    have hname : s.name = n := by simpa using List.find?_some hs
    rw [Option.map_some, Option.getD_some, (h m hm).flags s (List.mem_of_find?_eq_some hs), hname]

theorem sectionNames_of_tidy (h : ∀ m ∈ ms, m.Tidy) : sectionNames ms = StandardSection.names := by
  have hstandard : ∀ s ∈ ms.flatMap (·.sections), s.name ∈ StandardSection.names := fun s hs => by
    obtain ⟨m, hm, hs⟩ := List.mem_flatMap.mp hs
    exact (h m hm).standard s hs
  unfold sectionNames
  generalize ms.flatMap (·.sections) = ss at hstandard
  induction ss with
  | nil => rfl
  | cons s ss ih =>
    obtain ⟨hs, hss⟩ := List.forall_mem_cons.mp hstandard
    rw [List.foldl_cons, if_pos hs, ih hss]

/-- The layout of such modules depends on nothing but the lengths of their sections. -/
theorem ofModules_of_tidy (l : LinkSettings) (h : ∀ m ∈ ms, m.Tidy) (h' : ∀ m ∈ ms', m.Tidy)
    (hl : ∀ n, ms'.map (·.offset n) = ms.map (·.offset n)) : ofModules l ms' = ofModules l ms := by
  have hparts : ∀ n, concatenate n ms' = concatenate n ms := fun n => by
    rw [concatenate, concatenate]
    dsimp only
    rw [flags_of_tidy h, flags_of_tidy h', alignment_of_tidy h, alignment_of_tidy h',
      contributions_of_tidy h, contributions_of_tidy h', hl]
  rw [ofModules, ofModules, sectionNames_of_tidy h, sectionNames_of_tidy h', funext hparts]

end Layout

end MipsToolchain
