import MipsToolchain.Proofs.Link.Patching
import MipsToolchain.Proofs.Object.Building

namespace MipsToolchain

open Diagnostic MipsToolchain.Module

namespace Reference

/-- The word behind a reference, where the lower half of a split address is. -/
def next (r : Reference) : Reference := { r with location := r.location.add 4 }

/-- Whether a reference leaves alone everything that a later one reads. -/
def Precedes (q r : Reference) : Prop :=
  r.Disjoint q ∧ (r.kind = .high16 → r.next.Disjoint q)

end Reference

/-- What becomes of the word of a reference, judged by the module before anything was patched. -/
def Relinks (l : Layout) (gs : Globals) (i : Nat) (m : Module) (r : Reference) (w' : UInt32) :
    Prop :=
  ∃ t delta w, resolveReference l gs i m r = .ok (some t) ∧ relocationDelta l i r t = .ok delta ∧
    (m.readWord r.location).run = .ok (.ok w) ∧ (m.relocatedWord r w delta).run = .ok (.ok w')

section Run

variable {l : Layout} {gs : Globals} {i : Nat} {m₀ m : Module} {done : List Reference}
  {r : Reference}

theorem Relinks.unique {w w' : UInt32} (h : Relinks l gs i m r w) (h' : Relinks l gs i m r w') :
    w = w' := by
  obtain ⟨t, delta, v, ht, hdelta, hv, hw⟩ := h
  obtain ⟨t', delta', v', ht', hdelta', hv', hw'⟩ := h'
  cases ht.symm.trans ht'
  cases hdelta.symm.trans hdelta'
  cases hv.symm.trans hv'
  cases hw.symm.trans hw'
  rfl

-- The references before this one change neither its word nor, for an upper half, the lower one.
theorem relinks_untouched (hu : Untouched done m₀ m) (hp : ∀ q ∈ done, q.Precedes r) (w' : UInt32) :
    Relinks l gs i m r w' ↔ Relinks l gs i m₀ r w' := by
  have hread : m.readWord r.location = m₀.readWord r.location :=
    hu.readWord fun q hq => (hp q hq).1
  have hword : ∀ w delta, m.relocatedWord r w delta = m₀.relocatedWord r w delta := fun w delta =>
    relocatedWord_congr fun hk => hu.readWord (r := r.next) fun q hq => (hp q hq).2 hk
  simp only [Relinks, hu.resolveReference, hread, hword]

theorem linkReference_iff {res : Reported Module} :
    linkReference l gs i m r = .ok res ∧ errorCount res.diagnostics = 0 ↔
      ∃ w', Relinks l gs i m r w' ∧ res = ⟨m.withWord r.location w', []⟩ := by
  constructor
  · rintro ⟨h, he⟩
    obtain ⟨t, delta, ht, hdelta, hrel⟩ := linkReference_eq_ok h he
    obtain ⟨w, w', hw, hw', hm⟩ := relocate_eq_ok_iff.mp hrel
    refine ⟨w', ⟨t, delta, w, ht, hdelta, hw, hw'⟩, ?_⟩
    rw [linkReference_eq, ht] at h
    dsimp only at h
    rw [hdelta] at h
    dsimp only at h
    rw [hrel] at h
    rw [← hm]
    exact (Except.ok.inj h).symm
  · rintro ⟨w', ⟨t, delta, w, ht, hdelta, hw, hw'⟩, rfl⟩
    have hrel := relocate_eq_ok_iff.mpr ⟨w, w', hw, hw', rfl⟩
    refine ⟨?_, rfl⟩
    rw [linkReference_eq, ht]
    dsimp only
    rw [hdelta]
    dsimp only
    rw [hrel]

/-- Patching succeeds if every reference can be patched by itself. -/
theorem linkReferences_of_relinks {rs : List Reference} (hu : Untouched done m₀ m)
    (hp : ∀ q ∈ done, ∀ r ∈ rs, q.Precedes r) (hrs : rs.Pairwise Reference.Precedes)
    (hr : ∀ r ∈ rs, ∃ w', Relinks l gs i m₀ r w') :
    ∃ m', linkReferences l gs i rs m = .ok ⟨m', []⟩ := by
  induction rs generalizing m done with
  | nil => exact ⟨m, rfl⟩
  | cons r rs ih =>
    obtain ⟨hfirst, hrest⟩ := List.pairwise_cons.mp hrs
    obtain ⟨⟨w', hw'⟩, hr⟩ := List.forall_mem_cons.mp hr
    have hpr : ∀ q ∈ done, q.Precedes r := fun q hq => hp q hq r (by simp)
    have hw := (relinks_untouched hu hpr w').mpr hw'
    obtain ⟨hstep, -⟩ := linkReference_iff.mpr ⟨w', hw, rfl⟩
    have hu' := hu.trans (untouched_linkReference hstep)
    have hp' : ∀ q ∈ done ++ [r], ∀ r' ∈ rs, q.Precedes r' := fun q hq r' hr' => by
      rcases List.mem_append.mp hq with hq | hq
      · exact hp q hq r' (by simp [hr'])
      · rw [List.mem_singleton.mp hq]
        exact hfirst r' hr'
    obtain ⟨m', hrun⟩ := ih hu' hp' hrest hr
    exact ⟨m', Guarded.bind_eq_ok.mpr ⟨_, _, hstep, hrun, rfl⟩⟩

theorem relinks_of_linkReferences {rs : List Reference} {res : Reported Module}
    (hu : Untouched done m₀ m) (hp : ∀ q ∈ done, ∀ r ∈ rs, q.Precedes r)
    (hrs : rs.Pairwise Reference.Precedes) (h : linkReferences l gs i rs m = .ok res)
    (he : errorCount res.diagnostics = 0) :
    res.diagnostics = [] ∧ ∀ r ∈ rs, ∃ w', Relinks l gs i m₀ r w' ∧
      res.value.wordIn? m₀.order r.location.sectionName r.location.offset = some w' := by
  induction rs generalizing m done res with
  | nil =>
    cases Guarded.pure_eq_ok.mp h
    exact ⟨rfl, by simp⟩
  | cons r rs ih =>
    obtain ⟨hfirst, hrest⟩ := List.pairwise_cons.mp hrs
    obtain ⟨a, b, ha, hb, rfl⟩ := Guarded.bind_eq_ok.mp h
    rw [errorCount_append] at he
    obtain ⟨w', hw', rfl⟩ := linkReference_iff.mp ⟨ha, by omega⟩
    have hpr : ∀ q ∈ done, q.Precedes r := fun q hq => hp q hq r (by simp)
    have hu' := hu.trans (untouched_linkReference ha)
    have hp' : ∀ q ∈ done ++ [r], ∀ r' ∈ rs, q.Precedes r' := fun q hq r' hr' => by
      rcases List.mem_append.mp hq with hq | hq
      · exact hp q hq r' (by simp [hr'])
      · rw [List.mem_singleton.mp hq]
        exact hfirst r' hr'
    obtain ⟨hquiet, hwords⟩ := ih hu' hp' hrest hb (by omega)
    refine ⟨hquiet, List.forall_mem_cons.mpr ⟨⟨w', ?_, ?_⟩, hwords⟩⟩
    · exact (relinks_untouched hu hpr w').mp hw'
    · obtain ⟨t, delta, w, -, -, hw, -⟩ := hw'
      obtain ⟨s, hs, hle⟩ := inside_of_wordIn? (readWord_eq_ok hw)
      have hkeep := (untouched_linkReferences hb).word (r := r) fun q hq => (hfirst q hq).1.symm
      rw [← hu.order, hkeep m.order]
      exact wordIn?_patch hs hle m.order w'

end Run

end MipsToolchain
