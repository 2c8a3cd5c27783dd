import Mathlib.Data.List.Pairwise
import MipsToolchain.Proofs.Link.Program

namespace MipsToolchain

/-- The alignment that a module asks for in a section, which is none where it has no such section. -/
def Module.alignmentOf (m : Module) (n : Name) : Nat :=
  ((m.section? n).map Section.alignment).getD 0

theorem blockSize_dvd {a b : Nat} (h : a ≤ b) : blockSize a ∣ blockSize b :=
  Nat.pow_dvd_pow 2 h

namespace OutputSection

open MipsToolchain.Module

def reached (out : OutputSection) (ms : List Module) : Nat → Nat
  | 0 => 0
  | i + 1 => out.offsets.getD i 0 + ((ms[i]?).map (·.offset out.name)).getD 0

def Covers (out : OutputSection) (a : Nat) : Prop := out.address ≤ a ∧ a < out.finish

theorem overlaps_iff (s o : OutputSection) : s.overlaps o ↔ ∃ a, s.Covers a ∧ o.Covers a := by
  simp only [overlaps, Bool.and_eq_true, bne_iff_ne, decide_eq_true_eq]
  unfold Covers OutputSection.finish
  constructor
  · rintro ⟨⟨⟨hs, ho⟩, hso⟩, hos⟩
    exact ⟨max s.address o.address, by omega, by omega⟩
  · rintro ⟨a, hs, ho⟩
    omega

section Contributions

variable (n : Name)

theorem contributions_cons (cursor : Nat) (m : Module) (ms : List Module) :
    contributions n cursor (m :: ms) =
      let start := alignUp cursor (m.alignmentOf n)
      let rest := contributions n (start + m.offset n) ms
      (start :: rest.1, rest.2) := by
  rw [contributions]
  cases hs : m.section? n with
  | none => simp [alignmentOf, hs, offset_of_none hs, alignUp_zero]
  | some s => simp [alignmentOf, hs, offset_of_section? hs]

theorem getElem?_contributions (cursor : Nat) (ms : List Module) (i : Nat) :
    (contributions n cursor ms).1[i]? =
      ms[i]?.map fun m => alignUp (contributions n cursor (ms.take i)).2 (m.alignmentOf n) := by
  induction ms generalizing cursor i with
  | nil => rfl
  | cons m ms ih =>
    rw [contributions_cons]
    cases i with
    | zero => rfl
    | succ i =>
      rw [List.take_succ_cons, contributions_cons]
      exact ih _ i

theorem contributions_take_succ (cursor : Nat) (ms : List Module) {i : Nat} {m : Module}
    (hm : ms[i]? = some m) : (contributions n cursor (ms.take (i + 1))).2 =
      alignUp (contributions n cursor (ms.take i)).2 (m.alignmentOf n) + m.offset n := by
  induction ms generalizing cursor i with
  | nil => cases hm
  | cons m₀ ms ih =>
    rw [List.take_succ_cons, contributions_cons]
    cases i with
    | zero =>
      cases hm
      rfl
    | succ i =>
      rw [List.take_succ_cons, contributions_cons]
      exact ih _ hm

theorem contributions_take_mono (ms : List Module) {i j : Nat} (h : i ≤ j) :
    (contributions n 0 (ms.take i)).2 ≤ (contributions n 0 (ms.take j)).2 := by
  induction j, h using Nat.le_induction with
  | base => exact Nat.le_refl _
  | succ j _ ih =>
    refine ih.trans ?_
    cases hm : ms[j]? with
    | none => rw [List.take_add_one, hm, Option.toList_none, List.append_nil]
    | some m =>
      rw [contributions_take_succ n 0 ms hm]
      exact (le_alignUp _ _).trans (Nat.le_add_right _ _)

theorem reached_eq {out : OutputSection} {ms : List Module} {i : Nat} (hi : i ≤ ms.length)
    (ho : out.offsets = (contributions out.name 0 ms).1) :
    out.reached ms i = (contributions out.name 0 (ms.take i)).2 := by
  cases i with
  | zero => rfl
  | succ i =>
    have hm := List.getElem?_eq_getElem (Nat.lt_of_succ_le hi)
    rw [reached, contributions_take_succ out.name 0 ms hm, ho, List.getD_eq_getElem?_getD,
      getElem?_contributions, hm]
    rfl

end Contributions

theorem le_foldl_max {ss : List Section} {a : Nat} :
    a ≤ ss.foldl (fun a s => max a s.alignment) a ∧
      ∀ s ∈ ss, s.alignment ≤ ss.foldl (fun a s => max a s.alignment) a := by
  induction ss generalizing a with
  | nil => exact ⟨Nat.le_refl a, by simp⟩
  | cons s ss ih =>
    obtain ⟨hle, hall⟩ := ih (a := max a s.alignment)
    exact ⟨(Nat.le_max_left _ _).trans hle,
      List.forall_mem_cons.mpr ⟨(Nat.le_max_right _ _).trans hle, hall⟩⟩

theorem alignmentOf_le_concatenate (n : Name) {ms : List Module} {m : Module} (hm : m ∈ ms) :
    m.alignmentOf n ≤ (concatenate n ms).alignment := by
  cases hs : m.section? n with
  | none => simp [alignmentOf, hs]
  | some s =>
    simp only [alignmentOf, hs, Option.map_some, Option.getD_some]
    exact le_foldl_max.2 s (List.mem_filterMap.mpr ⟨m, hm, hs⟩)

end OutputSection

namespace Layout

open OutputSection MipsToolchain.Module

theorem mem_place {text data : Nat} {ss : List OutputSection} {out : OutputSection}
    (h : out ∈ place text data ss) : blockSize (max out.alignment 2) ∣ out.address ∧
      ∃ s ∈ ss, out = { s with address := out.address } := by
  induction ss generalizing text data with
  | nil => cases h
  | cons s ss ih =>
    rw [place] at h
    split at h
    all_goals
      rcases List.mem_cons.mp h with rfl | h
      · exact ⟨dvd_alignUp _ _, s, List.mem_cons_self, rfl⟩
      · obtain ⟨hd, t, ht, heq⟩ := ih h
        exact ⟨hd, t, List.mem_cons_of_mem _ ht, heq⟩

/-- What a layout promises about where the sections of modules go. -/
structure Arranges (l : Layout) (ms : List Module) : Prop where
  complete : ∀ m ∈ ms, ∀ s ∈ m.sections, ∃ out ∈ l.sections, out.name = s.name
  distinct : (l.sections.map OutputSection.name).Nodup
  words : ∀ out ∈ l.sections, 4 ∣ out.address
  addresses : ∀ out ∈ l.sections, ∀ m ∈ ms,
    max 4 (blockSize (m.alignmentOf out.name)) ∣ out.address
  -- The gap in front of a contribution is smaller than its alignment.
  starts : ∀ out ∈ l.sections, ∀ (i : Nat) (m : Module), ms[i]? = some m →
    ∃ start, out.offsets[i]? = some start ∧
    blockSize (m.alignmentOf out.name) ∣ start ∧
    out.reached ms i ≤ start ∧ start < out.reached ms i + blockSize (m.alignmentOf out.name)
  follows : ∀ out ∈ l.sections, ∀ (i j : Nat) (m : Module) (start later : Nat), i < j →
    ms[i]? = some m → out.offsets[i]? = some start → out.offsets[j]? = some later →
    start + m.offset out.name ≤ later
  ends : ∀ out ∈ l.sections, out.size = out.reached ms ms.length

theorem mem_ofModules {l : LinkSettings} {ms : List Module} {out : OutputSection}
    (h : out ∈ (ofModules l ms).sections) : blockSize (max out.alignment 2) ∣ out.address ∧
      out = { concatenate out.name ms with address := out.address } := by
  obtain ⟨hd, s, hs, heq⟩ := mem_place h
  obtain ⟨n, -, rfl⟩ := List.mem_map.mp hs
  have hn : out.name = n := congrArg OutputSection.name heq
  exact ⟨hd, hn ▸ heq⟩

theorem arranges_ofModules (l : LinkSettings) (ms : List Module) : (ofModules l ms).Arranges ms where
  complete m hm s hs := by
    have hname : s.name ∈ sectionNames ms := (nodup_addNames _ _ (by decide)).2 _
      (.inr (List.mem_map_of_mem (List.mem_flatMap.mpr ⟨m, hm, hs⟩)))
    obtain ⟨out, hmem, hn, -⟩ := section?_ofModules l hname
    exact ⟨out, hmem, hn⟩
  distinct := nodup_names_ofModules l ms
  words out hout :=
    (blockSize_dvd (Nat.le_max_right out.alignment 2)).trans (mem_ofModules hout).1
  addresses out hout m hm := by
    obtain ⟨hd, heq⟩ := mem_ofModules hout
    have hle : m.alignmentOf out.name ≤ out.alignment := by
      rw [heq]
      exact alignmentOf_le_concatenate out.name hm
    rcases Nat.le_total 4 (blockSize (m.alignmentOf out.name)) with h | h
    · rw [Nat.max_eq_right h]
      exact (blockSize_dvd (hle.trans (Nat.le_max_left _ 2))).trans hd
    · rw [Nat.max_eq_left h]
      exact (blockSize_dvd (Nat.le_max_right _ 2)).trans hd
  starts out hout i m hm := by
    have ho := offsets_ofModules hout
    have hi : i ≤ ms.length := (List.getElem?_eq_some_iff.mp hm).1.le
    refine ⟨alignUp (out.reached ms i) (m.alignmentOf out.name), ?_, dvd_alignUp _ _,
      le_alignUp _ _, alignUp_lt _ _⟩
    rw [ho, getElem?_contributions, hm, reached_eq hi ho]
    rfl
  follows out hout i j m start later hij hm hs hj := by
    rw [offsets_ofModules hout, getElem?_contributions] at hs hj
    obtain ⟨m', hm', rfl⟩ := Option.map_eq_some_iff.mp hs
    cases hm.symm.trans hm'
    obtain ⟨m', -, rfl⟩ := Option.map_eq_some_iff.mp hj
    rw [← contributions_take_succ out.name 0 ms hm]
    exact (contributions_take_mono out.name ms hij).trans (le_alignUp _ _)
  ends out hout := by
    have hsize : out.size = (contributions out.name 0 ms).2 := by
      rw [(mem_ofModules hout).2]
      rfl
    rw [hsize, reached_eq (Nat.le_refl _) (offsets_ofModules hout), List.take_length]

/-- Whether a module has a byte at an address, in its part of a section. -/
def Occupies (l : Layout) (ms : List Module) (i : Nat) (n : Name) (a : Nat) : Prop :=
  ∃ out start m, l.section? n = some out ∧ out.offsets[i]? = some start ∧ ms[i]? = some m ∧
    out.address + start ≤ a ∧ a < out.address + start + m.offset n

section Occupies

variable {l : Layout} {ms : List Module}

theorem mem_of_section? {n : Name} {out : OutputSection} (h : l.section? n = some out) :
    out ∈ l.sections ∧ out.name = n :=
  ⟨List.mem_of_find?_eq_some h, by simpa using List.find?_some h⟩

theorem Arranges.inside (h : l.Arranges ms) {out : OutputSection} (hout : out ∈ l.sections)
    {i start : Nat} {m : Module} (hm : ms[i]? = some m) (hs : out.offsets[i]? = some start) :
    start + m.offset out.name ≤ out.size := by
  have hi : i < ms.length := (List.getElem?_eq_some_iff.mp hm).1
  obtain ⟨k, hk⟩ := Nat.exists_eq_add_of_lt hi
  rw [h.ends out hout, hk, reached]
  cases k with
  | zero => simp [hm, List.getD_eq_getElem?_getD, hs]
  | succ k =>
    have hlast : i + (k + 1) < ms.length := by omega
    obtain ⟨last, hlast', -⟩ := h.starts out hout _ _ (List.getElem?_eq_getElem hlast)
    have hle := h.follows out hout i (i + (k + 1)) m start last (by omega) hm hs hlast'
    rw [List.getD_eq_getElem?_getD, hlast', Option.getD_some]
    omega

theorem Arranges.covers (h : l.Arranges ms) {i : Nat} {n : Name} {a : Nat}
    (ho : l.Occupies ms i n a) : ∃ out ∈ l.sections, out.name = n ∧ out.Covers a := by
  obtain ⟨out, start, m, hout, hs, hm, hle, hlt⟩ := ho
  obtain ⟨hmem, rfl⟩ := mem_of_section? hout
  have hin := h.inside hmem hm hs
  exact ⟨out, hmem, rfl, by omega, by unfold OutputSection.finish; omega⟩

theorem Arranges.index_unique (h : l.Arranges ms) {i j : Nat} {n : Name} {a : Nat}
    (hi : l.Occupies ms i n a) (hj : l.Occupies ms j n a) : ¬ i < j := by
  intro hij
  obtain ⟨out, start, m, hout, hs, hm, -, hlt⟩ := hi
  obtain ⟨out', later, m', hout', hl, -, hle, -⟩ := hj
  cases hout.symm.trans hout'
  obtain ⟨hmem, rfl⟩ := mem_of_section? hout
  have hfollows := h.follows out hmem i j m start later hij hm hs hl
  omega

theorem Arranges.occupant_unique (h : l.Arranges ms)
    (hsep : l.sections.Pairwise fun s o => ¬ ∃ a, s.Covers a ∧ o.Covers a) {i j : Nat}
    {n n' : Name} {a : Nat} (hi : l.Occupies ms i n a) (hj : l.Occupies ms j n' a) :
    i = j ∧ n = n' := by
  have hn : n = n' := by
    obtain ⟨out, hmem, rfl, hc⟩ := h.covers hi
    obtain ⟨out', hmem', rfl, hc'⟩ := h.covers hj
    by_contra hne
    have hsymm : Std.Symm fun s o : OutputSection => ¬ ∃ a, s.Covers a ∧ o.Covers a :=
      ⟨fun s o hno ⟨a, ha, ha'⟩ => hno ⟨a, ha', ha⟩⟩
    have hdiff : out ≠ out' := fun heq => hne (congrArg OutputSection.name heq)
    exact hsep.forall hmem hmem' hdiff ⟨a, hc, hc'⟩
  subst hn
  exact ⟨Nat.le_antisymm (Nat.not_lt.mp (h.index_unique hj hi))
    (Nat.not_lt.mp (h.index_unique hi hj)), rfl⟩

end Occupies

section Overlaps

def pairs : List OutputSection → List (OutputSection × OutputSection)
  | [] => []
  | s :: ss => ss.map (s, ·) ++ pairs ss

theorem mem_pairs_iff {s o : OutputSection} {ss : List OutputSection} :
    (s, o) ∈ pairs ss ↔ [s, o].Sublist ss := by
  induction ss with
  | nil => simp [pairs]
  | cons t ss ih =>
    rw [pairs, List.mem_append, ih, List.mem_map, List.sublist_cons_iff]
    constructor
    · rintro (⟨o, ho, heq⟩ | h)
      · cases heq
        exact .inr ⟨[o], rfl, List.singleton_sublist.mpr ho⟩
      · exact .inl h
    · rintro (h | ⟨r, hr, h⟩)
      · exact .inr h
      · cases hr
        exact .inl ⟨o, List.singleton_sublist.mp h, rfl⟩

def overlapReport (s o : OutputSection) : Diagnostic :=
  .of .sectionOverlap .none [] [.text s.name, .text o.name]

theorem diagnostics_overlapsOf (s : OutputSection) (os : List OutputSection) :
    (overlapsOf s os).diagnostics = (os.filter s.overlaps).map (overlapReport s) := by
  induction os with
  | nil => rfl
  | cons o os ih =>
    have hstep : (overlapsOf s (o :: os)).diagnostics =
        (if s.overlaps o then [overlapReport s o] else []) ++ (overlapsOf s os).diagnostics := by
      change (if s.overlaps o then report .sectionOverlap .none [] [.text s.name, .text o.name]
        else pure ()).diagnostics ++ (overlapsOf s os).diagnostics = _
      split <;> rfl
    rw [hstep, ih, List.filter_cons]
    split <;> rfl

theorem diagnostics_checkOverlaps (ss : List OutputSection) : (checkOverlaps ss).diagnostics =
    ((pairs ss).filter fun p => p.1.overlaps p.2).map fun p => overlapReport p.1 p.2 := by
  induction ss with
  | nil => rfl
  | cons s ss ih =>
    rw [checkOverlaps, Reported.diagnostics_bind, diagnostics_overlapsOf, ih, pairs,
      List.filter_append, List.map_append, List.filter_map, List.map_map]
    rfl

theorem nodup_pairs {ss : List OutputSection} (h : (ss.map OutputSection.name).Nodup) :
    ((pairs ss).map fun p => (p.1.name, p.2.name)).Nodup := by
  induction ss with
  | nil => exact .nil
  | cons s ss ih =>
    rw [List.map_cons, List.nodup_cons] at h
    obtain ⟨hs, hss⟩ := h
    rw [pairs, List.map_append, List.nodup_append, List.map_map]
    refine ⟨?_, ih hss, fun x hx y hy heq => ?_⟩
    · have hmap : ss.map ((fun p : OutputSection × OutputSection => (p.1.name, p.2.name)) ∘ (s, ·)) =
          (ss.map OutputSection.name).map (s.name, ·) := by
        rw [List.map_map]
        rfl
      rw [hmap]
      exact List.Pairwise.map (s.name, ·) (fun a b hne heq => hne (congrArg Prod.snd heq)) hss
    · obtain ⟨o, -, rfl⟩ := List.mem_map.mp hx
      obtain ⟨⟨t, u⟩, htu, rfl⟩ := List.mem_map.mp hy
      have ht : t ∈ ss := (mem_pairs_iff.mp htu).subset List.mem_cons_self
      have hname : s.name = t.name := congrArg Prod.fst heq
      exact hs (hname ▸ List.mem_map_of_mem ht)

theorem mem_checkOverlaps_iff {ss : List OutputSection} {d : Diagnostic} :
    d ∈ (checkOverlaps ss).diagnostics ↔ ∃ s o, [s, o].Sublist ss ∧
      (∃ a, s.Covers a ∧ o.Covers a) ∧ d = overlapReport s o := by
  rw [diagnostics_checkOverlaps, List.mem_map]
  constructor
  · rintro ⟨⟨s, o⟩, hmem, rfl⟩
    obtain ⟨hpair, hover⟩ := List.mem_filter.mp hmem
    exact ⟨s, o, mem_pairs_iff.mp hpair, (overlaps_iff s o).mp hover, rfl⟩
  · rintro ⟨s, o, hpair, hover, rfl⟩
    exact ⟨(s, o), List.mem_filter.mpr ⟨mem_pairs_iff.mpr hpair, (overlaps_iff s o).mpr hover⟩, rfl⟩

theorem nodup_checkOverlaps {ss : List OutputSection} (h : (ss.map OutputSection.name).Nodup) :
    (checkOverlaps ss).diagnostics.Nodup := by
  have hnames := List.pairwise_map.mp ((nodup_pairs h).sublist
    ((List.filter_sublist (p := fun p => p.1.overlaps p.2)).map _))
  rw [diagnostics_checkOverlaps]
  refine List.pairwise_map.mpr (hnames.imp fun hne heq => hne ?_)
  have hargs := congrArg Diagnostic.args heq
  simp only [overlapReport, Diagnostic.of, List.cons.injEq, MessageArg.text.injEq, and_true] at hargs
  exact Prod.ext hargs.1 hargs.2

theorem separate_of_quiet {ss : List OutputSection} (h : (checkOverlaps ss).diagnostics = []) :
    ss.Pairwise fun s o => ¬ ∃ a, s.Covers a ∧ o.Covers a := by
  refine List.pairwise_iff_forall_sublist.mpr fun {s o} hpair hover => ?_
  have hmem := mem_checkOverlaps_iff.mpr ⟨s, o, hpair, hover, rfl⟩
  rw [h] at hmem
  cases hmem

end Overlaps

end Layout

end MipsToolchain
