import MipsToolchain.Proofs.Assembly.References
import MipsToolchain.Proofs.Link.Completion
import MipsToolchain.Proofs.Link.Copying
import MipsToolchain.Proofs.ObjectFile.Loading

namespace MipsToolchain

open Diagnostic Guarded MipsToolchain.Module ObjectFile

namespace Module

section Alignments

variable {m m' : Module} {n : Name}

theorem Alignable.updateSection (h : m.Alignable) (n : Name) {f : Section → Section}
    (hf : ∀ s, s.alignment ≤ maxAlignment → (f s).alignment ≤ maxAlignment) :
    (m.updateSection n f).Alignable := by
  intro t ht
  obtain ⟨s, hs, rfl⟩ := List.mem_map.mp ht
  split
  · exact hf s (h s hs)
  · exact h s hs

theorem Alignable.of_sections (h : m.Alignable) (hs : m'.sections = m.sections) : m'.Alignable :=
  fun s hmem => h s (hs ▸ hmem)

theorem alignable_addSection {flags : SectionFlags} {s : Section} (hm : m.Alignable)
    (h : m.perform (addSection n flags) = .ok (s, m')) : m'.Alignable := by
  rcases addSection_eq_ok h with ⟨-, rfl⟩ | ⟨-, rfl, rfl⟩
  · exact hm
  · intro t ht
    rcases List.mem_append.mp ht with ht | ht
    · exact hm t ht
    · rw [List.mem_singleton.mp ht]
      exact Nat.zero_le _

theorem alignable_append {bytes : ByteArray} {k : Nat} (hm : m.Alignable)
    (h : m.perform (append n bytes) = .ok (k, m')) : m'.Alignable := by
  obtain ⟨s, m₁, hadd, -, rfl⟩ := append_eq_ok h
  exact (alignable_addSection hm hadd).updateSection n fun s hs => hs

theorem alignable_reserve {count : Int} {k : Nat} (hm : m.Alignable)
    (h : m.perform (reserve n count) = .ok (k, m')) : m'.Alignable :=
  alignable_append hm (reserve_eq_ok h)

theorem alignable_align {boundary : Nat} {u : Unit} (hm : m.Alignable)
    (h : m.perform (align n boundary) = .ok (u, m')) : m'.Alignable := by
  obtain ⟨hb, s, m₁, m₂, hadd, rfl, hfill⟩ := align_eq_ok h
  have halign : (m₁.updateSection n fun s =>
      { s with alignment := max s.alignment boundary }).Alignable :=
    (alignable_addSection hm hadd).updateSection n fun s hs => Nat.max_le.mpr ⟨hs, hb⟩
  rcases hfill with ⟨-, rfl⟩ | ⟨k, -, hr⟩
  · exact halign
  · exact alignable_reserve halign hr

theorem Built.alignable (h : m.Built) : m.Alignable := by
  induction h with
  | new => exact fun s hs => by cases hs
  | addSection _ _ _ h ih => exact alignable_addSection ih h
  | append _ _ _ h ih => exact alignable_append ih h
  | appendWord _ _ _ h ih =>
    rw [Module.appendWord, perform_bind, perform_get] at h
    exact alignable_append ih h
  | reserve _ _ _ h ih => exact alignable_reserve ih h
  | align _ _ _ h ih => exact alignable_align ih h
  | tryDefine _ _ _ _ _ h ih => exact ih.of_sections (keepsContents_tryDefine h).sections
  | define _ _ _ _ _ h ih => exact ih.of_sections (keepsContents_define h).sections
  | declare _ _ _ h ih => exact ih.of_sections (keepsContents_declare h).sections
  | track _ _ h ih => exact ih.of_sections (perform_track h).1
  | writeWord _ _ _ h ih =>
    obtain ⟨s, -, -, rfl⟩ := writeWord_eq_ok h
    exact ih.updateSection _ fun _ hs => hs
  | relocate _ _ _ h ih =>
    obtain ⟨s, w, w', -, -, -, -, rfl⟩ := relocate_eq_ok h
    exact ih.updateSection _ fun _ hs => hs
  | place n address _ ih => exact ih.updateSection n fun _ hs => hs
  | markFailed _ ih => exact ih
  | finalize _ ih => exact ih

end Alignments

variable {m : Module} {loc : Address} {s : Section} {k : Nat}

theorem toNat_toInt_ofNat_le (k : Nat) : (Int64.ofNat k).toInt.toNat ≤ k := by
  rw [Int64.toInt_ofNat', Int64.size, Int.bmod_def]
  split <;> omega

/-- A word that is inside of its section can be asked for, also where its place is too large for a
signed number. -/
theorem canRead_of_inside (hv : loc.value = Int64.ofNat k) (hs : m.section? loc.sectionName = some s)
    (hk : k + 4 ≤ s.length) : m.CanRead loc := by
  intro t ht
  cases hs.symm.trans (wordAt_eq_ok ht)
  have hle := toNat_toInt_ofNat_le k
  rw [Address.offset, hv]
  omega

theorem canRead_of_small (hv : loc.value = Int64.ofNat k) (hk : k < 2 ^ 62) : m.CanRead loc := by
  intro t ht
  unfold wordAt at ht
  rw [wordAt_eq_ok ht] at ht
  dsimp only at ht
  split at ht
  · cases ht
  · next hin =>
    have hend : (loc.value + 4).toInt = k + 4 := by
      have hsum : loc.value + 4 = Int64.ofNat (k + 4) := by
        rw [hv, Int64.ofNat_add]
        rfl
      rw [hsum, Int64.toInt_ofNat_of_lt (by omega)]
      rfl
    have hoffset : loc.offset = k := by
      rw [Address.offset, hv, Int64.toInt_ofNat_of_lt (by omega), Int.toNat_natCast]
    rw [not_or, Int64.not_lt, Int64.not_lt, Int64.le_iff_toInt_le (y := Int64.ofNat _), hend] at hin
    have hlen := toNat_toInt_ofNat_le t.length
    omega

end Module

/-- The modules that come out of the toolchain: assembled from any text, or read from any file that
is accepted and not a program. -/
inductive Produced : Module → Prop
  | assembled {s : Settings} {name : String} {text : List String} {r : Reported Module} :
      assembleLines s name text = .ok r → Produced r.value
  | loaded {name : String} {data : List UInt8} {f : File} :
      unmarshal name data = .ok (.ok f) → f.isExecutable = false → Produced f.module

theorem linkable_assembleLines {s : Settings} {name : String} {text : List String}
    {r : Reported Module} (h : assembleLines s name text = .ok r) : r.value.Linkable := by
  obtain ⟨out, hout, -, hkeeps, hsymbols⟩ := assembleLines_eq_ok h
  obtain ⟨⟨ps, hps⟩, -⟩ := assembleLines_references h
  have hsound := (Environment.moves_lines _ _ _ _ _ out hout).sound
    (Environment.sound_initial name s.order)
  have hlisted : ∀ q ∈ r.value.references, ∃ o, (q, o) ∈ ps := by
    intro q hq
    rw [← hps.references] at hq
    obtain ⟨p, hp, rfl⟩ := List.mem_map.mp hq
    exact ⟨p.2, hp⟩
  refine ⟨hsound.built.alignable.of_sections hkeeps.sections, fun t ht a ha hrel => ?_,
    fun q hq _ => ?_, fun q hq => ?_⟩
  · rw [hkeeps.isSectionName]
    exact (hsound.symbols t (hsymbols ▸ ht)).placed a ha hrel
  · obtain ⟨o, ho⟩ := hlisted q hq
    obtain ⟨t, ht, -⟩ := (hps.refers _ ho).inside
    simp [isSectionName, ht]
  · obtain ⟨o, ho⟩ := hlisted q hq
    have hrefers := hps.refers _ ho
    obtain ⟨t, ht, hin⟩ := hrefers.inside
    have hvalue : q.location.value = Int64.ofNat o := congrArg Address.value hrefers.location
    refine ⟨?_, canRead_of_inside hvalue ht hin, fun hk => ?_⟩
    · obtain ⟨w, -, hholds⟩ := hrefers.holds
      unfold Reference.HoldsAddend at hholds
      cases hkind : q.kind with
      | unassigned c =>
        rw [hkind] at hholds
        exact hholds.elim
      | absolute32 | high16 | low16 | jump26 | pcrel16 => rfl
    · -- The lower half stands behind the upper one, in the same section.
      obtain ⟨q', hq', hn⟩ := hps.paired.exists_lower ho hk
      obtain ⟨t', ht', hin'⟩ := (hps.refers _ hq').inside
      refine canRead_of_inside (k := o + 4) ?_ (hn ▸ ht') hin'
      rw [Address.add, hvalue, Int64.ofNat_add]
      rfl

theorem located_unmarshal {name : String} {data : List UInt8} {f : File}
    (h : unmarshal name data = .ok (.ok f)) : ∀ r ∈ f.module.references, Located f.module r := by
  obtain ⟨header, rest, parts, m, -, -, hrun, rfl⟩ := unmarshal_eq_ok.mp h
  intro r hr
  obtain ⟨hk, hsmall, hin⟩ := (relocatable_addParts hrun).2 r hr
  exact ⟨hk, hsmall, hin⟩

theorem linkable_unmarshal {name : String} {data : List UInt8} {f : File}
    (h : unmarshal name data = .ok (.ok f)) (hx : f.isExecutable = false) : f.module.Linkable := by
  have hlocated := located_unmarshal h
  obtain ⟨header, rest, parts, m, -, -, hrun, rfl⟩ := unmarshal_eq_ok.mp h
  obtain ⟨hrelocatable, -⟩ := relocatable_addParts hrun
  refine ⟨(hrelocatable.built hx).alignable, fun t ht a ha hrel => ?_, fun q hq _ => ?_,
    fun q hq => ?_⟩
  · exact isSectionName_of_standard (hrelocatable.placed hx t ht a ha hrel)
  · obtain ⟨s, hs, -⟩ := (hlocated q hq).inBounds
    simp [isSectionName, hs]
  · obtain ⟨hk, ⟨k, hsmall, hvalue⟩, -⟩ := hlocated q hq
    refine ⟨hk, canRead_of_small hvalue (by omega), fun _ => canRead_of_small (k := k + 4) ?_ (by omega)⟩
    rw [Address.add, hvalue, Int64.ofNat_add]
    rfl

theorem Produced.linkable {m : Module} (h : Produced m) : m.Linkable := by
  cases h with
  | assembled h => exact linkable_assembleLines h
  | loaded h hx => exact linkable_unmarshal h hx

/-- Linking never stops at a fault, whatever modules of the toolchain it is given, in whatever order.
That rests on what is checked where files are read: references are about words that are there, in a
way that exists. -/
theorem link_produced_completes :
    (∀ (s : Settings) (ms : List Module), (∀ m ∈ ms, Produced m) → ∃ r, link s ms = .ok r) ∧
    ∀ (name : String) (data : List UInt8) (f : File), unmarshal name data = .ok (.ok f) →
      ∀ r ∈ f.module.references, f.module.InBounds r.location ∧ r.kind.isAssigned := by
  refine ⟨fun s ms h => ?_, fun name data f h r hr => ?_⟩
  · obtain ⟨r, hr, -⟩ := link_completes s fun m hm => (h m hm).linkable
    exact ⟨r, hr⟩
  · have hlocated := located_unmarshal h r hr
    exact ⟨hlocated.inBounds, hlocated.assigned⟩

theorem link_produced_completes_callingModule : ∃ data f r out,
    marshal callingModule = .ok data ∧ unmarshal "call.o" data = .ok (.ok f) ∧
    f.isExecutable = false ∧
    assembleLines {} "a.s" ["far: la $t0, none", ".section odd", ".word main"] = .ok r ∧
    r.value.failed = false ∧ link {} [r.value, f.module] = .ok out ∧
    f.module.references.length = 2 ∧
    ∀ r ∈ f.module.references, f.module.InBounds r.location ∧ r.kind.isAssigned := by
  have hfile : (marshal callingModule).toOption.any fun data =>
      ((unmarshal "call.o" data).toOption.bind Except.toOption).any fun f =>
        !f.isExecutable && f.module.references.length == 2 := by
    decide +kernel
  have htext : (assembleLines {} "a.s" ["far: la $t0, none", ".section odd",
      ".word main"]).toOption.any fun r => !r.value.failed := by
    decide +kernel
  obtain ⟨data, hdata, hfile⟩ := (Option.any_eq_true _ _).mp hfile
  obtain ⟨f, hf, hfile⟩ := (Option.any_eq_true _ _).mp hfile
  obtain ⟨y, hy, hf⟩ := Option.bind_eq_some_iff.mp hf
  obtain ⟨r, hr, hok⟩ := (Option.any_eq_true _ _).mp htext
  rw [except_toOption_eq_some] at hdata hy hf
  replace hr := except_toOption_eq_some.mp hr
  subst hf
  simp only [Bool.and_eq_true, Bool.not_eq_true', beq_iff_eq] at hfile hok
  obtain ⟨out, hout⟩ := link_produced_completes.1 {} [r.value, f.module] (by
    simp only [List.mem_cons, List.not_mem_nil, or_false, forall_eq_or_imp, forall_eq]
    exact ⟨.assembled hr, .loaded hy hfile.1⟩)
  exact ⟨data, f, r, out, hdata, hy, hfile.1, hr, hok, hout, hfile.2,
    link_produced_completes.2 "call.o" data f hy⟩

end MipsToolchain
