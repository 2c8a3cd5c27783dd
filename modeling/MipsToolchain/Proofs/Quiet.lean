import MipsToolchain.Proofs.Effects

namespace MipsToolchain

open Diagnostic

variable {α β : Type} {kind : Diagnostic → Bool}

/-- No diagnostic of a kind beside a value that counts as a success. -/
def Reported.Quiet (kind : Diagnostic → Bool) (x : Reported α) (success : α → Prop) : Prop :=
  success x.value → ∀ d ∈ x.diagnostics, kind d = false

def Guarded.Quiet (kind : Diagnostic → Bool) (x : Guarded α) (success : α → Prop) : Prop :=
  ∀ r, x = .ok r → r.Quiet kind success

namespace Reported.Quiet

variable {x : Reported α} {f : α → Reported β} {p : α → Prop} {q : β → Prop}

theorem pure (a : α) : (Pure.pure a : Reported α).Quiet kind p := by
  rintro - d hd
  cases hd

theorem failure (h : ¬p x.value) : x.Quiet kind p := fun hp => absurd hp h

/-- A first part that fails is not forgotten by what comes after it. -/
theorem bind (hx : x.Quiet kind p) (hback : ∀ a, q (f a).value → p a)
    (hf : ∀ a, p a → (f a).Quiet kind q) : (x >>= f).Quiet kind q := by
  intro hq d hd
  have hp := hback x.value hq
  rcases List.mem_append.mp hd with hd | hd
  · exact hx hp d hd
  · exact hf x.value hp hq d hd

theorem skip (hx : x.Quiet kind fun _ => True) (hf : ∀ a, (f a).Quiet kind q) :
    (x >>= f).Quiet kind q :=
  bind hx (fun _ _ => trivial) fun a _ => hf a

theorem map {g : α → β} (hx : x.Quiet kind p) (hg : ∀ a, q (g a) → p a) :
    (x >>= fun a => Pure.pure (g a)).Quiet kind q :=
  bind hx hg fun _ _ => pure _

theorem bindSome {x : Reported (Option α)} {f : Option α → Reported β}
    (hx : x.Quiet kind fun v => v.isSome) (hnone : ¬q (f none).value)
    (hsome : ∀ a, (f (some a)).Quiet kind q) : (x >>= f).Quiet kind q := by
  refine bind hx (fun v hv => ?_) fun v hv => ?_
  · cases v with
    | none => exact absurd hv hnone
    | some a => rfl
  · obtain ⟨a, rfl⟩ := Option.isSome_iff_exists.mp hv
    exact hsome a

theorem mapSome {x : Reported (Option α)} {g : α → β} (hx : x.Quiet kind fun v => v.isSome) :
    (x >>= fun v => Pure.pure (v.map g)).Quiet kind fun v => v.isSome :=
  map hx fun v hv => by simpa using hv

theorem ofReport {problem : Problem} {loc : Source.Location} {ts : List String}
    {as : List MessageArg} {p : Unit → Prop} (h : kind (.of problem loc ts as) = false) :
    (report problem loc ts as).Quiet kind p := by
  intro _ d hd
  rw [diagnostics_report, List.mem_singleton] at hd
  rw [hd, h]

theorem warning {problem : Problem} (h : problem.severity ≠ .error) {loc : Source.Location}
    {ts : List String} {as : List MessageArg} {p : Unit → Prop} :
    (report problem loc ts as).Quiet isError p :=
  ofReport (by simp [isError, h])

theorem forM {as : List α} {g : α → Reported Unit} (h : ∀ a, (g a).Quiet kind fun _ => True) :
    (as.forM g).Quiet kind fun _ => True := by
  induction as with
  | nil => exact pure _
  | cons a as ih => exact skip (h a) fun _ => ih

theorem errorCount_ne_zero_iff (hq : x.Quiet isError p) (hy : x.Yields p) :
    errorCount x.diagnostics ≠ 0 ↔ ¬p x.value := by
  refine not_congr ⟨hy, fun hp => List.countP_eq_zero.mpr fun d hd => ?_⟩
  simp [hq hp d hd]

theorem diagnostics_ne_nil_iff (hq : x.Quiet (fun _ => true) p) (hy : x.Yields p) :
    x.diagnostics ≠ [] ↔ ¬p x.value := by
  refine not_congr ⟨fun h => hy (by rw [h]; rfl), fun hp => ?_⟩
  refine List.eq_nil_iff_forall_not_mem.mpr fun d hd => ?_
  cases hq hp d hd

end Reported.Quiet

namespace Guarded.Quiet

variable {x : Guarded α} {f : α → Guarded β} {p : α → Prop} {q : β → Prop}

theorem pure (a : α) : (Pure.pure a : Guarded α).Quiet kind p := by
  intro r hr
  cases pure_eq_ok.mp hr
  exact Reported.Quiet.pure a

theorem failure (h : x.Ensures fun a => ¬p a) : x.Quiet kind p := fun r hr => .failure (h r hr)

theorem ofReported {r : Reported α} (h : r.Quiet kind p) : (liftM r : Guarded α).Quiet kind p := by
  intro r' hr
  cases liftReported_eq_ok.mp hr
  exact h

theorem ofExcept (e : Except Fault α) : (liftM e : Guarded α).Quiet kind p := by
  intro r hr
  obtain ⟨a, -, rfl⟩ := liftExcept_eq_ok.mp hr
  exact Reported.Quiet.pure a

theorem fault {f : Fault} : (Guarded.fault f : Guarded α).Quiet kind p := by
  intro r hr
  cases hr

theorem bind (hx : x.Quiet kind p) (hback : ∀ a, (f a).Ensures fun b => q b → p a)
    (hf : ∀ a, p a → (f a).Quiet kind q) : (x >>= f).Quiet kind q := by
  intro r hr hq d hd
  obtain ⟨a, b, ha, hb, rfl⟩ := bind_eq_ok.mp hr
  have hp := hback a.value b hb hq
  rcases List.mem_append.mp hd with hd | hd
  · exact hx a ha hp d hd
  · exact hf a.value hp b hb hq d hd

theorem skip (hx : x.Quiet kind fun _ => True) (hf : ∀ a, (f a).Quiet kind q) :
    (x >>= f).Quiet kind q :=
  bind hx (fun _ _ _ _ => trivial) fun a _ => hf a

theorem map {g : α → β} (hx : x.Quiet kind p) (hg : ∀ a, q (g a) → p a) :
    (x >>= fun a => Pure.pure (g a)).Quiet kind q :=
  bind hx (fun a => .pure (hg a)) fun _ _ => pure _

theorem bindSome {x : Guarded (Option α)} {f : Option α → Guarded β}
    (hx : x.Quiet kind fun v => v.isSome) (hnone : (f none).Ensures fun b => ¬q b)
    (hsome : ∀ a, (f (some a)).Quiet kind q) : (x >>= f).Quiet kind q := by
  refine bind hx (fun v r hr hq => ?_) fun v hv => ?_
  · cases v with
    | none => exact absurd hq (hnone r hr)
    | some a => rfl
  · obtain ⟨a, rfl⟩ := Option.isSome_iff_exists.mp hv
    exact hsome a

theorem mapSome {x : Guarded (Option α)} {g : α → β} (hx : x.Quiet kind fun v => v.isSome) :
    (x >>= fun v => Pure.pure (v.map g)).Quiet kind fun v => v.isSome :=
  map hx fun v hv => by simpa using hv

end Guarded.Quiet

end MipsToolchain
