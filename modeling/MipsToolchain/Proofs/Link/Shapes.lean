import MipsToolchain.Proofs.Link.Program
import MipsToolchain.Proofs.Object.Slots

namespace MipsToolchain

open Diagnostic

/-- What the layout of a program takes from a section. -/
def Section.shape (s : Section) : Name × SectionFlags × Nat × Nat :=
  (s.name, s.flags, s.alignment, s.length)

structure Module.Alike (m m' : Module) : Prop where
  name : m'.name = m.name
  shapes : m'.sections.map Section.shape = m.sections.map Section.shape
  symbols : m'.symbols = m.symbols
  finalized : m'.finalized = m.finalized
  failed : m'.failed = m.failed

namespace Module

theorem Alike.refl (m : Module) : Alike m m := ⟨rfl, rfl, rfl, rfl, rfl⟩

theorem Alike.symm {m m' : Module} (h : Alike m m') : Alike m' m :=
  ⟨h.name.symm, h.shapes.symm, h.symbols.symm, h.finalized.symm, h.failed.symm⟩

theorem Alike.trans {m m' m'' : Module} (h : Alike m m') (h' : Alike m' m'') : Alike m m'' :=
  ⟨h'.name.trans h.name, h'.shapes.trans h.shapes, h'.symbols.trans h.symbols,
    h'.finalized.trans h.finalized, h'.failed.trans h.failed⟩

theorem alike_updateSection (n : Name) {f : Section → Section} (hf : ∀ s, (f s).shape = s.shape)
    (m : Module) : Alike m (m.updateSection n f) := by
  refine ⟨rfl, ?_, rfl, rfl, rfl⟩
  simp only [updateSection, List.map_map]
  refine List.map_congr_left fun s _ => ?_
  rw [Function.comp_apply]
  split
  · exact hf s
  · rfl

theorem shape_putBytes (s : Section) (k : Nat) (bs : List UInt8) :
    (putBytes s k bs).shape = s.shape := by
  rw [Section.shape, length_putBytes]
  rfl

theorem alike_putWords (n : Name) (k : Nat) (ws : List UInt32) (rs : List Reference) (m : Module) :
    Alike m (putWords n k ws rs m) :=
  ⟨rfl, (alike_updateSection n (fun s => shape_putBytes s k _) m).shapes, rfl, rfl, rfl⟩

variable {m m' : Module}

theorem section?_shape (m : Module) (n : Name) :
    (m.section? n).map Section.shape = (m.sections.map Section.shape).find? (·.1 = n) := by
  rw [List.find?_map]
  rfl

theorem Alike.section? (h : Alike m m') (n : Name) :
    (m'.section? n).map Section.shape = (m.section? n).map Section.shape := by
  rw [section?_shape, section?_shape, h.shapes]

end Module

namespace Layout

open MipsToolchain.Module OutputSection

variable {ms ms' : List Module}

theorem contributions_congr (h : List.Forall₂ Alike ms ms') (n : Name) (cursor : Nat) :
    contributions n cursor ms' = contributions n cursor ms := by
  induction h generalizing cursor with
  | nil => rfl
  | @cons m m' ms ms' hm _ ih =>
    have hs := hm.section? n
    rw [contributions, contributions]
    cases ht : m.section? n with
    | none =>
      rw [ht, Option.map_none, Option.map_eq_none_iff] at hs
      rw [hs]
      dsimp only
      rw [ih]
    | some t =>
      rw [ht, Option.map_some, Option.map_eq_some_iff] at hs
      obtain ⟨t', ht', hshape⟩ := hs
      simp only [Section.shape, Prod.mk.injEq] at hshape
      rw [ht']
      dsimp only
      rw [hshape.2.2.1, hshape.2.2.2, ih]

theorem parts_congr (h : List.Forall₂ Alike ms ms') (n : Name) :
    (ms'.filterMap (·.section? n)).map Section.shape =
      (ms.filterMap (·.section? n)).map Section.shape := by
  simp only [List.map_filterMap]
  induction h with
  | nil => rfl
  | cons hm _ ih =>
    rw [List.filterMap_cons, List.filterMap_cons, hm.section? n, ih]

theorem concatenate_congr (h : List.Forall₂ Alike ms ms') (n : Name) :
    concatenate n ms' = concatenate n ms := by
  have hparts := parts_congr h n
  have hflags : ((ms'.filterMap (·.section? n)).head?.map (·.flags)) =
      ((ms.filterMap (·.section? n)).head?.map (·.flags)) := by
    have hhead := congrArg (fun ts => (List.head? ts).map (·.2.1)) hparts
    simpa [List.head?_map, Option.map_map, Function.comp_def, Section.shape] using hhead
  have halign : (ms'.filterMap (·.section? n)).foldl (fun a s => max a s.alignment) 0 =
      (ms.filterMap (·.section? n)).foldl (fun a s => max a s.alignment) 0 := by
    have hfold := congrArg (List.foldl (fun a t => max a t.2.2.1) 0) hparts
    simpa [List.foldl_map, Section.shape] using hfold
  rw [concatenate, concatenate, contributions_congr h, hflags, halign]

theorem sectionNames_eq (ms : List Module) :
    sectionNames ms = ((ms.flatMap (·.sections)).map Section.shape).foldl
      (fun names t => if t.1 ∈ names then names else names ++ [t.1]) StandardSection.names := by
  rw [List.foldl_map]
  rfl

theorem sectionNames_congr (h : List.Forall₂ Alike ms ms') : sectionNames ms' = sectionNames ms := by
  have hshapes : (ms'.flatMap (·.sections)).map Section.shape =
      (ms.flatMap (·.sections)).map Section.shape := by
    induction h with
    | nil => rfl
    | cons hm _ ih =>
      rw [List.flatMap_cons, List.flatMap_cons, List.map_append, List.map_append, hm.shapes, ih]
  rw [sectionNames_eq, sectionNames_eq, hshapes]

theorem ofModules_congr (l : LinkSettings) (h : List.Forall₂ Alike ms ms') :
    ofModules l ms' = ofModules l ms := by
  rw [ofModules, ofModules, sectionNames_congr h, funext (concatenate_congr h)]

end Layout

open MipsToolchain.Module

theorem checkModules_congr {ms ms' : List Module} (h : List.Forall₂ Alike ms ms') :
    checkModules ms' = checkModules ms := by
  induction h with
  | nil => rfl
  | cons hm _ ih =>
    rw [checkModules, checkModules, ih, checkModules.check, checkModules.check, hm.failed,
      hm.finalized, hm.name]

namespace Globals

theorem addModules_congr {ms ms' : List Module} (h : List.Forall₂ Alike ms ms') (l : Layout)
    (names : List String) (i : Nat) (gs : Globals) :
    addModules l names i ms' gs = addModules l names i ms gs := by
  induction h generalizing i gs with
  | nil => rfl
  | cons hm _ ih =>
    rw [addModules, addModules, hm.symbols]
    exact congrArg _ (funext fun gs' => ih (i + 1) gs')

theorem ofModules_congr {ms ms' : List Module} (h : List.Forall₂ Alike ms ms') (l : Layout) :
    ofModules l ms' = ofModules l ms := by
  have hnames : ms'.map (·.name) = ms.map (·.name) := by
    induction h with
    | nil => rfl
    | cons hm _ ih => rw [List.map_cons, List.map_cons, hm.name, ih]
  rw [ofModules, ofModules, hnames, addModules_congr h]

end Globals

namespace Layout

theorem copyParts_congr (n : Name) (offsets : List Nat) {ms ms' : List Module}
    (h : ms'.map (·.sections) = ms.map (·.sections)) :
    copyParts n offsets ms' = copyParts n offsets ms := by
  induction ms generalizing ms' offsets with
  | nil =>
    rw [List.map_eq_nil_iff.mp h]
  | cons m ms ih =>
    obtain ⟨m', rest, rfl, hm, hrest⟩ := List.map_eq_cons_iff.mp h
    have hsection : m'.section? n = m.section? n := by
      simp only [Module.section?, hm]
    cases offsets with
    | nil => rfl
    | cons start offsets => rw [copyParts, copyParts, hsection, ih offsets hrest]

theorem image_congr (l : Layout) (o : ByteOrder) (gs : Globals) {ms ms' : List Module}
    (h : ms'.map (·.sections) = ms.map (·.sections)) : l.image o gs ms' = l.image o gs ms := by
  have hcopy : copySection ms' = copySection ms := by
    funext s
    rw [copySection, copySection, copyParts_congr s.name s.offsets h]
  rw [image, image, hcopy]

end Layout

end MipsToolchain
