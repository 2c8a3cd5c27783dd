import MipsToolchain.Proofs.Effects

namespace MipsToolchain

open Diagnostic

theorem except_mapM_isOk {ε α β : Type} {f : α → Except ε β} {as : List α}
    (h : ∀ a ∈ as, ∃ b, f a = .ok b) : ∃ bs, as.mapM f = .ok bs ∧ bs.length = as.length := by
  induction as with
  | nil => exact ⟨[], rfl, rfl⟩
  | cons a as ih =>
    obtain ⟨⟨b, hb⟩, hrest⟩ := List.forall_mem_cons.mp h
    obtain ⟨bs, hbs, hlen⟩ := ih hrest
    refine ⟨b :: bs, ?_, congrArg (· + 1) hlen⟩
    rw [List.mapM_cons, hb]
    change (as.mapM f >>= fun bs => .ok (b :: bs)) = .ok (b :: bs)
    rw [hbs]
    rfl

namespace Guarded

variable {α β : Type}

/-- A computation that does not stop at a fault, whatever it reports, with a property of its
result. -/
def Completes (x : Guarded α) (post : α → Prop) : Prop := ∃ r, x = .ok r ∧ post r.value

namespace Completes

variable {x : Guarded α} {f : α → Guarded β} {p p' : α → Prop} {q : β → Prop}

theorem andThen (hx : x.Completes p) (hf : ∀ a, p a → (f a).Completes q) :
    (x >>= f).Completes q := by
  obtain ⟨r, hr, hp⟩ := hx
  obtain ⟨b, hb, hq⟩ := hf r.value hp
  exact ⟨_, bind_eq_ok.mpr ⟨r, b, hr, hb, rfl⟩, hq⟩

theorem pure {a : α} (h : p a) : (Pure.pure a : Guarded α).Completes p := ⟨_, rfl, h⟩

theorem ofReported {r : Reported α} (h : p r.value) : (liftM r : Guarded α).Completes p :=
  ⟨r, rfl, h⟩

theorem ofExcept {e : Except Fault α} (h : ∃ a, e = .ok a ∧ p a) :
    (liftM e : Guarded α).Completes p := by
  obtain ⟨a, ha, hp⟩ := h
  exact ⟨⟨a, []⟩, liftExcept_eq_ok.mpr ⟨a, ha, rfl⟩, hp⟩

theorem reported {r : Reported α} (h : (f r.value).Completes q) :
    ((liftM r : Guarded α) >>= f).Completes q :=
  andThen (p := (· = r.value)) (.ofReported rfl) fun _ ha => ha ▸ h

theorem mono (h : x.Completes p) (hp : ∀ a, p a → p' a) : x.Completes p' := by
  obtain ⟨r, hr, h⟩ := h
  exact ⟨r, hr, hp _ h⟩

end Completes

end Guarded

section Delivering

variable {α β : Type} {a : α} {b : β}

def Reported.Delivers (x : Reported α) (a : α) : Prop :=
  errorCount x.diagnostics = 0 ∧ x.value = a

def Guarded.Delivers (x : Guarded α) (a : α) : Prop :=
  ∃ ds, x = .ok ⟨a, ds⟩ ∧ errorCount ds = 0

namespace Reported.Delivers

theorem pure (a : α) : (Pure.pure a : Reported α).Delivers a := ⟨rfl, rfl⟩

theorem bind {x : Reported α} {f : α → Reported β} (hx : x.Delivers a) (hf : (f a).Delivers b) :
    (x >>= f).Delivers b := by
  obtain ⟨hx, rfl⟩ := hx
  refine ⟨?_, hf.2⟩
  rw [diagnostics_bind, errorCount_append, hx, hf.1]

theorem warning {p : Problem} (hp : p.severity ≠ .error) (loc : Source.Location)
    (ts : List String) (as : List MessageArg) : (report p loc ts as).Delivers () := by
  refine ⟨?_, rfl⟩
  simp [errorCount, isError, hp]

end Reported.Delivers

namespace Guarded.Delivers

theorem pure (a : α) : (Pure.pure a : Guarded α).Delivers a := ⟨[], rfl, rfl⟩

theorem ofReported {r : Reported α} (h : r.Delivers a) : (liftM r : Guarded α).Delivers a :=
  ⟨r.diagnostics, h.2 ▸ rfl, h.1⟩

theorem ofExcept {e : Except Fault α} (h : e = .ok a) : (liftM e : Guarded α).Delivers a :=
  ⟨[], liftExcept_eq_ok.mpr ⟨a, h, rfl⟩, rfl⟩

theorem bind {x : Guarded α} {f : α → Guarded β} (hx : x.Delivers a) (hf : (f a).Delivers b) :
    (x >>= f).Delivers b := by
  obtain ⟨ds, hx, hds⟩ := hx
  obtain ⟨es, hf, hes⟩ := hf
  exact ⟨ds ++ es, bind_eq_ok.mpr ⟨⟨a, ds⟩, ⟨b, es⟩, hx, hf, rfl⟩, by
    rw [errorCount_append, hds, hes]⟩

end Guarded.Delivers

end Delivering

end MipsToolchain
