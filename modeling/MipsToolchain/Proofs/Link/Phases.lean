import MipsToolchain.Proofs.Link.Patching
import MipsToolchain.Proofs.Link.Program

namespace MipsToolchain

open Diagnostic

def Diagnostic.IsOf (d : Diagnostic) (p : Problem) : Prop := d.key = p.entry.key

theorem filter_eq_nil_of_isOf {ds : List Diagnostic} {f : Diagnostic → Bool} {q : Problem}
    {ps : List Problem} (hf : ∀ d, f d → d.IsOf q) (h : ∀ d ∈ ds, ∃ p ∈ ps, d.IsOf p)
    (hps : ∀ p ∈ ps, p.entry.key ≠ q.entry.key) : ds.filter f = [] := by
  refine List.filter_eq_nil_iff.mpr fun d hd hfd => ?_
  obtain ⟨p, hp, hof⟩ := h d hd
  exact hps p hp (hof.symm.trans (hf d hfd))

namespace Guarded

variable {α β : Type}

theorem bind_eq_error {x : Guarded α} {f : α → Guarded β} {e : Fault} :
    (x >>= f) = .error e ↔ x = .error e ∨ ∃ r, x = .ok r ∧ f r.value = .error e := by
  constructor
  · intro h
    match x, h with
    | .error e', h =>
      cases h
      exact .inl rfl
    | .ok r, h =>
      cases hf : f r.value with
      | error e' =>
        simp only [bind, hf] at h
        exact .inr ⟨r, rfl, hf.trans h⟩
      | ok b =>
        simp only [bind, hf] at h
        cases h
  · rintro (rfl | ⟨r, rfl, hf⟩)
    · rfl
    · simp only [bind, hf]
      rfl

/-- What a computation reports has one property, and the fault that stops it another. -/
structure Within (x : Guarded α) (reported : Diagnostic → Prop) (faulted : Fault → Prop) : Prop where
  reports : ∀ r, x = .ok r → ∀ d ∈ r.diagnostics, reported d
  faults : ∀ f, x = .error f → faulted f

namespace Within

variable {x : Guarded α} {f : α → Guarded β} {P P' : Diagnostic → Prop} {Q Q' : Fault → Prop}

theorem mono (h : x.Within P Q) (hP : ∀ d, P d → P' d) (hQ : ∀ f, Q f → Q' f) : x.Within P' Q' :=
  ⟨fun r hr d hd => hP d (h.reports r hr d hd), fun f hf => hQ f (h.faults f hf)⟩

theorem pure (a : α) : (Pure.pure a : Guarded α).Within P Q := by
  refine ⟨fun r hr d hd => ?_, fun f hf => by cases hf⟩
  cases pure_eq_ok.mp hr
  cases hd

theorem bind (hx : x.Within P Q) (hf : ∀ a, (f a).Within P Q) : (x >>= f).Within P Q := by
  refine ⟨fun r hr d hd => ?_, fun e he => ?_⟩
  · obtain ⟨a, b, ha, hb, rfl⟩ := bind_eq_ok.mp hr
    rcases List.mem_append.mp hd with hd | hd
    · exact hx.reports a ha d hd
    · exact (hf a.value).reports b hb d hd
  · rcases bind_eq_error.mp he with he | ⟨r, -, he⟩
    · exact hx.faults e he
    · exact (hf r.value).faults e he

theorem ofReported {r : Reported α} (h : ∀ d ∈ r.diagnostics, P d) :
    (liftM r : Guarded α).Within P Q := by
  refine ⟨fun r' hr => ?_, fun f hf => by cases hf⟩
  cases liftReported_eq_ok.mp hr
  exact h

theorem ofExcept {e : Except Fault α} (h : ∀ f, e = .error f → Q f) :
    (liftM e : Guarded α).Within P Q := by
  refine ⟨fun r hr d hd => ?_, fun f hf => h f (except_map_eq_error.mp hf)⟩
  obtain ⟨a, -, rfl⟩ := liftExcept_eq_ok.mp hr
  cases hd

end Within

end Guarded

section Faults

variable {m : Module} {f : Fault}

theorem readWord_fault {loc : Address} (h : (m.readWord loc).run = .error f) :
    f = .outOfRange := by
  rcases run_bind_eq_error.mp h with h | ⟨s, -, h⟩
  · cases h
  · split at h
    · cases h
    · cases h
      rfl

theorem writeWord_fault {loc : Address} {w : UInt32} (h : (m.writeWord loc w).run = .error f) :
    f = .outOfRange := by
  rcases run_bind_eq_error.mp h with h | ⟨s, -, h⟩
  · cases h
  · dsimp only at h
    split at h
    · cases h
    · cases h
      rfl

theorem relocatedWord_fault {r : Reference} {w : UInt32} {delta : Int64}
    (h : (m.relocatedWord r w delta).run = .error f) : f = .outOfRange ∨ f = .unreachable := by
  unfold Module.relocatedWord at h
  split at h
  · cases h
  · cases h
  · rcases run_bind_eq_error.mp h with h | ⟨lower, -, h⟩
    · exact .inl (readWord_fault (run_adapt_eq_error.mp h))
    · cases h
  · split at h <;> cases h
  · dsimp only at h
    split at h
    · cases h
    · split at h <;> cases h
  · cases h
    exact .inr rfl

theorem relocate_fault {r : Reference} {delta : Int64}
    (h : (m.relocate r delta).run = .error f) : f = .outOfRange ∨ f = .unreachable := by
  rcases run_bind_eq_error.mp h with h | ⟨w, -, h⟩
  · exact .inl (readWord_fault (run_adapt_eq_error.mp h))
  · rcases run_bind_eq_error.mp h with h | ⟨w', -, h⟩
    · exact relocatedWord_fault h
    · exact .inl (writeWord_fault (run_adapt_eq_error.mp h))

/-- The faults of linking up to the image. -/
def LinkFault (f : Fault) : Prop :=
  (∃ n, f = .unknownSection n) ∨ f = .outOfRange ∨ f = .unreachable

/-- Resolving an address stops only if its section is not there, or has no place for the module. -/
theorem resolve_fault {l : Layout} {i : Nat} {a : Address} (h : l.resolve i a = .error f) :
    LinkFault f := by
  unfold Layout.resolve at h
  split at h
  · split at h
    · exact .inr (.inl (elementAt_fault (except_map_eq_error.mp h)))
    · cases h
      exact .inl ⟨_, rfl⟩
  · cases h

theorem resolveReference_fault {l : Layout} {gs : Globals} {i : Nat} {r : Reference}
    (h : resolveReference l gs i m r = .error f) : LinkFault f := by
  unfold resolveReference at h
  split at h
  · exact resolve_fault (except_map_eq_error.mp h)
  · split at h
    · cases h
    · split at h
      · exact resolve_fault (except_map_eq_error.mp h)
      · cases h
      · exact resolve_fault (except_map_eq_error.mp h)
      · cases h

theorem relocationDelta_fault {l : Layout} {i : Nat} {r : Reference} {t : Int64}
    (h : relocationDelta l i r t = .error f) : LinkFault f := by
  unfold relocationDelta at h
  split at h
  · exact resolve_fault (except_map_eq_error.mp h)
  · cases h

end Faults

section Phases

variable {l : Layout}

theorem merge_within (gs : Globals) (names : List String) (g : Global) :
    (gs.merge names g).Within (·.IsOf .duplicateGlobal) LinkFault := by
  have hname : ∀ k, (liftM (elementAt names k) : Guarded String).Within (·.IsOf .duplicateGlobal)
      LinkFault := fun k => .ofExcept fun f hf => .inr (.inl (elementAt_fault hf))
  unfold Globals.merge
  split
  · exact .pure _
  · split
    · refine .bind (hname _) fun first => .bind (hname _) fun second => ?_
      refine .bind (.ofReported fun d hd => ?_) fun _ => .pure gs
      rw [List.mem_singleton.mp hd]
      rfl
    · split <;> exact .pure _

theorem addSymbols_within (names : List String) (i : Nat) (ss : List Symbol) (gs : Globals) :
    (Globals.addSymbols l names i ss gs).Within (·.IsOf .duplicateGlobal) LinkFault := by
  induction ss generalizing gs with
  | nil => exact .pure gs
  | cons s ss ih =>
    unfold Globals.addSymbols
    split
    · split
      · refine .bind (.ofExcept fun f => resolve_fault) fun address => ?_
        exact .bind (merge_within _ _ _) ih
      · exact ih gs
    · exact ih gs

theorem addModules_within (names : List String) (i : Nat) (ms : List Module) (gs : Globals) :
    (Globals.addModules l names i ms gs).Within (·.IsOf .duplicateGlobal) LinkFault := by
  induction ms generalizing i gs with
  | nil => exact .pure gs
  | cons m ms ih => exact .bind (addSymbols_within names i m.symbols gs) (ih (i + 1))

theorem linkReference_within (gs : Globals) (i : Nat) (m : Module) (r : Reference) :
    (linkReference l gs i m r).Within
      (fun d => d.IsOf .unresolvedSymbol ∨ d.IsOf .relocationFailed) LinkFault := by
  refine .bind (.ofExcept fun f => resolveReference_fault) fun target => ?_
  split
  · refine .bind (.ofReported fun d hd => ?_) fun _ => .pure m
    rw [List.mem_singleton.mp hd]
    exact .inl rfl
  · refine .bind (.ofExcept fun f => relocationDelta_fault) fun delta => ?_
    refine .bind (.ofExcept fun f hf => .inr (relocate_fault hf)) fun moved => ?_
    split
    · exact .pure _
    · refine .bind (.ofReported fun d hd => ?_) fun _ => .pure m
      rw [List.mem_singleton.mp hd]
      exact .inr rfl

theorem linkReferences_within (gs : Globals) (i : Nat) (rs : List Reference) (m : Module) :
    (linkReferences l gs i rs m).Within
      (fun d => d.IsOf .unresolvedSymbol ∨ d.IsOf .relocationFailed) LinkFault := by
  induction rs generalizing m with
  | nil => exact .pure m
  | cons r rs ih => exact .bind (linkReference_within gs i m r) ih

theorem linkModules_within (gs : Globals) (i : Nat) (ms : List Module) :
    (linkModules l gs i ms).Within
      (fun d => d.IsOf .unresolvedSymbol ∨ d.IsOf .relocationFailed) LinkFault := by
  induction ms generalizing i with
  | nil => exact .pure []
  | cons m ms ih =>
    exact .bind (linkReferences_within gs i m.references m) fun m' =>
      .bind (ih (i + 1)) fun ms' => .pure _

theorem checkModules_reports (ms : List Module) : ∀ d ∈ (checkModules ms).diagnostics,
    d.IsOf .moduleFailed ∨ d.IsOf .notFinalized := by
  induction ms with
  | nil => simp [checkModules]
  | cons m ms ih =>
    intro d hd
    simp only [checkModules, Reported.diagnostics_bind, Reported.diagnostics_pure,
      List.append_nil] at hd
    rcases List.mem_append.mp hd with hd | hd
    · unfold checkModules.check at hd
      split at hd
      · rw [List.mem_singleton.mp hd]
        exact .inl rfl
      · split at hd
        · rw [List.mem_singleton.mp hd]
          exact .inr rfl
        · cases hd
    · exact ih d hd

theorem resolveEntry_reports (l : LinkSettings) (gs : Globals) :
    ∀ d ∈ (resolveEntry l gs).diagnostics, d.IsOf .missingEntry := by
  intro d hd
  unfold resolveEntry at hd
  split at hd
  · cases hd
  · rw [Reported.diagnostics_bind, Reported.diagnostics_pure, List.append_nil] at hd
    rw [List.mem_singleton.mp hd]
    rfl

theorem linkage_faults {s : Settings} {ms : List Module} {f : Fault}
    (h : linkage s ms = .error f) : LinkFault f := by
  have hall : (linkage s ms).Within (fun _ => True) LinkFault := by
    refine .bind (.ofReported fun _ _ => trivial) fun ok => ?_
    split
    · refine .bind (.ofReported fun _ _ => trivial) fun _ => ?_
      refine .bind ((addModules_within _ _ _ _).mono (fun _ _ => trivial) fun _ => id) fun gs => ?_
      refine .bind ((linkModules_within _ _ _).mono (fun _ _ => trivial) fun _ => id) fun out => ?_
      exact .bind (.ofReported fun _ _ => trivial) fun _ => .pure _
    · exact .pure none
  exact hall.faults f h

theorem linkage_value {s : Settings} {ms : List Module} {r : Reported (Option Linkage)}
    (h : linkage s ms = .ok r) : r.value.isSome = (checkModules ms).value ∧
      (r.value = none → r.diagnostics = (checkModules ms).diagnostics) := by
  obtain ⟨a, b, ha, hb, rfl⟩ := Guarded.bind_eq_ok.mp h
  cases Guarded.liftReported_eq_ok.mp ha
  split at hb
  · next hchecked =>
    obtain ⟨_, c, -, hc, rfl⟩ := Guarded.bind_eq_ok.mp hb
    obtain ⟨_, d, -, hd, rfl⟩ := Guarded.bind_eq_ok.mp hc
    obtain ⟨_, e, -, he, rfl⟩ := Guarded.bind_eq_ok.mp hd
    obtain ⟨_, f, -, hf, rfl⟩ := Guarded.bind_eq_ok.mp he
    cases Guarded.pure_eq_ok.mp hf
    exact ⟨hchecked.symm, fun hnone => by cases hnone⟩
  · next hchecked =>
    cases Guarded.pure_eq_ok.mp hb
    exact ⟨(Bool.eq_false_iff.mpr hchecked).symm, fun _ => List.append_nil _⟩

theorem link_diagnostics {s : Settings} {ms : List Module} {r : Reported (Option Program)}
    (h : link s ms = .ok r) :
    ∃ k, linkage s ms = .ok k ∧ r.diagnostics = promoteIf s.strict k.diagnostics := by
  unfold link at h
  split at h
  · cases h
  · next k hk =>
    refine ⟨k, hk, ?_⟩
    dsimp only at h
    split at h
    · cases h
      rfl
    · next l _ =>
      by_cases he : 0 < errorCount (promoteIf s.strict k.diagnostics)
      · cases (if_pos he).symm.trans h
        rfl
      · replace h := (if_neg he).symm.trans h
        cases himg : l.layout.image s.order l.globals l.modules with
        | error f =>
          rw [himg] at h
          cases h
        | ok img =>
          rw [himg] at h
          cases h
          rfl

end Phases

end MipsToolchain
