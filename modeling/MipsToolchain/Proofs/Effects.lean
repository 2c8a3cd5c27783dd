import MipsToolchain.Diagnostic.Reported
import MipsToolchain.Object.Module

namespace MipsToolchain

section Except

variable {ε φ α β : Type}

theorem except_bind_eq_ok {x : Except ε α} {f : α → Except ε β} {b : β} :
    (x >>= f) = .ok b ↔ ∃ a, x = .ok a ∧ f a = .ok b := by
  cases x <;> simp [bind, Except.bind]

theorem except_map_eq_ok {x : Except ε α} {f : α → β} {b : β} :
    x.map f = .ok b ↔ ∃ a, x = .ok a ∧ f a = b := by
  cases x <;> simp [Except.map]

theorem except_map_eq_error {x : Except ε α} {f : α → β} {e : ε} :
    x.map f = .error e ↔ x = .error e := by
  cases x <;> simp [Except.map]

theorem except_toOption_eq_some {x : Except ε α} {a : α} : x.toOption = some a ↔ x = .ok a := by
  cases x <;> simp [Except.toOption]

theorem except_forM_eq_ok {xs : List α} {f : α → Except ε Unit} {u : Unit} :
    xs.forM f = .ok u ↔ ∀ x ∈ xs, f x = .ok () := by
  induction xs with
  | nil => simp [pure, Except.pure]
  | cons x xs ih =>
    change (f x >>= fun _ => xs.forM f) = .ok u ↔ _
    rw [except_bind_eq_ok, List.forall_mem_cons, ← ih]
    exact ⟨fun ⟨_, hx, hxs⟩ => ⟨hx, hxs⟩, fun ⟨hx, hxs⟩ => ⟨_, hx, hxs⟩⟩

theorem mk_ok_bind (a : α) (f : α → ExceptT ε (Except φ) β) :
    (ExceptT.mk (.ok (.ok a)) >>= f) = f a :=
  rfl

theorem run_bind_eq_ok {x : ExceptT ε (Except φ) α} {f : α → ExceptT ε (Except φ) β} {b : β} :
    (x >>= f).run = .ok (.ok b) ↔ ∃ a, x.run = .ok (.ok a) ∧ (f a).run = .ok (.ok b) := by
  rw [ExceptT.run_bind]
  cases x.run with
  | error e => simp [bind, Except.bind]
  | ok y => cases y <;> simp [bind, Except.bind, pure, Except.pure]

theorem run_bind_of_ok {x : ExceptT ε (Except φ) α} {a : α} (h : x.run = .ok (.ok a))
    (f : α → ExceptT ε (Except φ) β) : (x >>= f).run = (f a).run := by
  rw [ExceptT.run_bind, h]
  rfl

theorem run_bind_of_error {x : ExceptT ε (Except φ) α} {e : ε} (h : x.run = .ok (.error e))
    (f : α → ExceptT ε (Except φ) β) : (x >>= f).run = .ok (.error e) := by
  rw [ExceptT.run_bind, h]
  rfl

theorem run_bind_eq_error {x : ExceptT ε (Except φ) α} {f : α → ExceptT ε (Except φ) β} {e : φ} :
    (x >>= f).run = .error e ↔ x.run = .error e ∨ ∃ a, x.run = .ok (.ok a) ∧ (f a).run = .error e := by
  rw [ExceptT.run_bind]
  cases x.run with
  | error e => simp [bind, Except.bind]
  | ok y => cases y <;> simp [bind, Except.bind, pure, Except.pure]

/-- What fails does so in the same way, whatever comes after it. -/
theorem run_bind_of_fails {x y : ExceptT ε (Except φ) α} (hxy : x.run = y.run)
    (h : ∀ a, x.run ≠ .ok (.ok a)) (f g : α → ExceptT ε (Except φ) β) :
    (x >>= f).run = (y >>= g).run ∧ ∀ b, (x >>= f).run ≠ .ok (.ok b) := by
  rw [ExceptT.run_bind, ExceptT.run_bind, ← hxy]
  rcases hx : x.run with f | ⟨e | a⟩
  · exact ⟨rfl, fun _ hb => nomatch hb⟩
  · exact ⟨rfl, fun _ hb => nomatch hb⟩
  · exact absurd hx (h a)

theorem run_adapt_eq_ok {g : ε → β} {x : ExceptT ε (Except φ) α} {a : α} :
    (ExceptT.adapt g x).run = .ok (.ok a) ↔ x.run = .ok (.ok a) := by
  have h : (ExceptT.adapt g x).run = x.run.map (Except.mapError g) := rfl
  rw [h]
  cases x.run with
  | error e => simp [Except.map]
  | ok y => cases y <;> constructor <;> intro h <;> cases h <;> rfl

theorem run_adapt_of_error {x : ExceptT ε (Except φ) α} {e : ε} (h : x.run = .ok (.error e))
    (g : ε → β) : (ExceptT.adapt g x).run = .ok (.error (g e)) := by
  change x.run.map (Except.mapError g) = .ok (.error (g e))
  rw [h]
  rfl

theorem run_adapt_eq_error {g : ε → β} {x : ExceptT ε (Except φ) α} {e : φ} :
    (ExceptT.adapt g x).run = .error e ↔ x.run = .error e := by
  have h : (ExceptT.adapt g x).run = x.run.map (Except.mapError g) := rfl
  rw [h, except_map_eq_error]

end Except

namespace Diagnostic

@[simp]
theorem errorCount_append (ds es : List Diagnostic) :
    errorCount (ds ++ es) = errorCount ds + errorCount es :=
  List.countP_append

theorem errorCount_report_append {p : Problem} (h : p.severity = .error) (loc : Source.Location)
    (ts : List String) (as : List MessageArg) (ds : List Diagnostic) :
    errorCount ((report p loc ts as).diagnostics ++ ds) ≠ 0 := by
  simp [errorCount, isError, h]

theorem errorCount_le_promoteIf (strict : Bool) (ds : List Diagnostic) :
    errorCount ds ≤ errorCount (promoteIf strict ds) := by
  cases strict with
  | false => exact Nat.le_refl _
  | true =>
    rw [promoteIf, if_pos rfl, errorCount, errorCount, List.countP_map]
    refine List.countP_mono_left fun d _ hd => ?_
    simp [isError_promote, hd]

end Diagnostic

open Diagnostic

namespace Reported

variable {α β : Type}

/-- A property of a value that comes without an error. -/
def Yields (x : Reported α) (post : α → Prop) : Prop :=
  errorCount x.diagnostics = 0 → post x.value

namespace Yields

variable {x : Reported α} {f : α → Reported β} {p : α → Prop} {q : β → Prop}

theorem andThen (hx : x.Yields p) (hf : ∀ a, p a → (f a).Yields q) : (x >>= f).Yields q := by
  intro he
  rw [diagnostics_bind, errorCount_append] at he
  exact hf x.value (hx (by omega)) (by omega)

theorem skip (hf : ∀ a, (f a).Yields q) : (x >>= f).Yields q :=
  andThen (fun _ => trivial) fun a (_ : True) => hf a

theorem andThenSome {x : Reported (Option α)} {f : Option α → Reported β}
    (hx : x.Yields fun v => v.isSome) (hf : ∀ a, (f (some a)).Yields q) : (x >>= f).Yields q := by
  refine andThen hx fun v hv => ?_
  obtain ⟨a, rfl⟩ := Option.isSome_iff_exists.mp hv
  exact hf a

theorem pure {a : α} (h : p a) : (Pure.pure a : Reported α).Yields p := fun _ => h

theorem mapSome {x : Reported (Option α)} {g : α → β} (hx : x.Yields fun v => v.isSome) :
    (x >>= fun v => Pure.pure (v.map g)).Yields fun v => v.isSome :=
  andThenSome hx fun _ => pure rfl

theorem mono {p' : α → Prop} (h : x.Yields p) (hp : ∀ a, p a → p' a) : x.Yields p' :=
  fun he => hp x.value (h he)

theorem ofReport {problem : Problem} (hp : problem.severity = .error) {loc : Source.Location}
    {ts : List String} {as : List MessageArg} {g : Unit → Reported β} :
    (report problem loc ts as >>= g).Yields q := by
  intro he
  rw [diagnostics_bind] at he
  exact absurd he (errorCount_report_append hp _ _ _ _)

end Yields

end Reported

namespace Guarded

variable {α β : Type}

theorem bind_eq_ok {x : Guarded α} {f : α → Guarded β} {r : Reported β} :
    (x >>= f) = .ok r ↔
      ∃ a b, x = .ok a ∧ f a.value = .ok b ∧ r = ⟨b.value, a.diagnostics ++ b.diagnostics⟩ := by
  constructor
  · intro h
    match x, h with
    | .ok a, h =>
      cases hf : f a.value with
      | error e =>
        simp only [bind, hf] at h
        cases h
      | ok b =>
        simp only [bind, hf] at h
        cases h
        exact ⟨a, b, rfl, hf, rfl⟩
  · rintro ⟨a, b, rfl, hf, rfl⟩
    simp only [bind, hf]
    rfl

instance : LawfulMonad Guarded :=
  LawfulMonad.mk' Guarded
    (fun x => by
      cases x with
      | error e => rfl
      | ok r =>
        change Except.ok (⟨r.value, r.diagnostics ++ []⟩ : Reported _) = .ok r
        rw [List.append_nil])
    (fun a f => by
      change (match f a with
        | .error e => .error e
        | .ok s => .ok ⟨s.value, [] ++ s.diagnostics⟩) = f a
      cases f a <;> rfl)
    (fun x f g => by
      cases x with
      | error e => rfl
      | ok a =>
        cases hf : f a.value with
        | error e =>
          simp only [bind, hf]
          rfl
        | ok b =>
          cases hg : g b.value <;> simp only [bind, hf, hg, List.append_assoc] <;> rfl)

theorem pure_eq_ok {a : α} {r : Reported α} : (pure a : Guarded α) = .ok r ↔ r = ⟨a, []⟩ := by
  change (Except.ok (⟨a, []⟩ : Reported α) : Except Fault (Reported α)) = .ok r ↔ _
  simp [eq_comm]

theorem liftReported_eq_ok {x r : Reported α} : (liftM x : Guarded α) = .ok r ↔ x = r := by
  change (Except.ok x : Except Fault (Reported α)) = .ok r ↔ _
  simp

theorem liftExcept_eq_ok {x : Except Fault α} {r : Reported α} :
    (liftM x : Guarded α) = .ok r ↔ ∃ a, x = .ok a ∧ r = ⟨a, []⟩ := by
  change x.map pure = .ok r ↔ _
  rw [except_map_eq_ok]
  simp [eq_comm, pure]

def mapValue (f : α → β) (x : Guarded α) : Guarded β :=
  match x with
  | .error e => .error e
  | .ok r => .ok ⟨f r.value, r.diagnostics⟩

theorem mapValue_eq_ok {f : α → β} {x : Guarded α} {r : Reported β} :
    x.mapValue f = .ok r ↔ ∃ a, x = .ok a ∧ r = ⟨f a.value, a.diagnostics⟩ := by
  constructor
  · intro h
    match x, h with
    | .ok a, h =>
      cases h
      exact ⟨a, rfl, rfl⟩
  · rintro ⟨a, rfl, rfl⟩
    rfl

theorem mapValue_bind {γ : Type} (f : α → β) (x : Guarded α) (g : β → Guarded γ) :
    x.mapValue f >>= g = x >>= fun a => g (f a) := by
  cases x <;> rfl

theorem bind_mapValue {γ : Type} (f : β → γ) (x : Guarded α) (g : α → Guarded β) :
    (x >>= g).mapValue f = x >>= fun a => (g a).mapValue f := by
  cases x with
  | error e => rfl
  | ok r =>
    change mapValue f (match g r.value with
      | .error e => .error e
      | .ok s => .ok ⟨s.value, r.diagnostics ++ s.diagnostics⟩) = (match mapValue f (g r.value) with
      | .error e => .error e
      | .ok s => .ok ⟨s.value, r.diagnostics ++ s.diagnostics⟩)
    cases g r.value <;> rfl

theorem bind_congr_ok {x : Guarded α} {f g : α → Guarded β}
    (h : ∀ r, x = .ok r → f r.value = g r.value) : x >>= f = x >>= g := by
  cases x with
  | error e => rfl
  | ok r =>
    simp only [bind, h r rfl]

/-- The value of a computation that does not stop, whatever it reports. -/
def Gives (x : Guarded α) (a : α) : Prop := ∃ ds, x = .ok ⟨a, ds⟩

namespace Gives

theorem pure (a : α) : (Pure.pure a : Guarded α).Gives a := ⟨[], rfl⟩

theorem ofOk {x : Guarded α} {r : Reported α} (h : x = .ok r) : x.Gives r.value :=
  ⟨r.diagnostics, h⟩

theorem ofReported (r : Reported α) : (liftM r : Guarded α).Gives r.value := ⟨r.diagnostics, rfl⟩

theorem ofExcept {e : Except Fault α} {a : α} (h : e = .ok a) : (liftM e : Guarded α).Gives a :=
  ⟨[], liftExcept_eq_ok.mpr ⟨a, h, rfl⟩⟩

theorem bind {x : Guarded α} {f : α → Guarded β} {a : α} {b : β} (hx : x.Gives a)
    (hf : (f a).Gives b) : (x >>= f).Gives b := by
  obtain ⟨ds, hx⟩ := hx
  obtain ⟨es, hf⟩ := hf
  exact ⟨ds ++ es, bind_eq_ok.mpr ⟨⟨a, ds⟩, ⟨b, es⟩, hx, hf, rfl⟩⟩

theorem unique {x : Guarded α} {a b : α} (h : x.Gives a) (h' : x.Gives b) : a = b := by
  obtain ⟨ds, h⟩ := h
  obtain ⟨es, h'⟩ := h'
  rw [h] at h'
  cases h'
  rfl

end Gives

/-- A property of every result, whatever is reported. -/
def Ensures (x : Guarded α) (post : α → Prop) : Prop := ∀ r, x = .ok r → post r.value

namespace Ensures

variable {x : Guarded α} {f : α → Guarded β} {p : α → Prop} {q : β → Prop}

theorem bind (h : ∀ r, x = .ok r → (f r.value).Ensures q) : (x >>= f).Ensures q := by
  intro r hr
  obtain ⟨a, b, ha, hb, rfl⟩ := bind_eq_ok.mp hr
  exact h a ha b hb

theorem andThen (hx : x.Ensures p) (hf : ∀ a, p a → (f a).Ensures q) : (x >>= f).Ensures q :=
  bind fun r hr => hf r.value (hx r hr)

theorem skip (hf : ∀ a, (f a).Ensures q) : (x >>= f).Ensures q := bind fun r _ => hf r.value

theorem mono {p' : α → Prop} (h : x.Ensures p) (hp : ∀ a, p a → p' a) : x.Ensures p' :=
  fun r hr => hp r.value (h r hr)

theorem pure {a : α} (h : p a) : (Pure.pure a : Guarded α).Ensures p := by
  intro r hr
  cases pure_eq_ok.mp hr
  exact h

theorem ofExcept {e : Except Fault α} (h : ∀ a, e = .ok a → p a) :
    (liftM e : Guarded α).Ensures p := by
  intro r hr
  obtain ⟨a, ha, rfl⟩ := liftExcept_eq_ok.mp hr
  exact h a ha

theorem fault {f : Fault} : (Guarded.fault f : Guarded α).Ensures p := by
  intro r hr
  cases hr

end Ensures

def Yields (x : Guarded α) (post : α → Prop) : Prop :=
  ∀ r, x = .ok r → errorCount r.diagnostics = 0 → post r.value

namespace Yields

variable {x : Guarded α} {f : α → Guarded β} {p : α → Prop} {q : β → Prop}

theorem bind (h : ∀ r, x = .ok r → errorCount r.diagnostics = 0 → (f r.value).Yields q) :
    (x >>= f).Yields q := by
  intro r hr he
  obtain ⟨a, b, ha, hb, rfl⟩ := bind_eq_ok.mp hr
  rw [errorCount_append] at he
  exact h a ha (by omega) b hb (by omega)

theorem andThen (hx : x.Yields p) (hf : ∀ a, p a → (f a).Yields q) : (x >>= f).Yields q :=
  bind fun r hr he => hf r.value (hx r hr he)

theorem skip (hf : ∀ a, (f a).Yields q) : (x >>= f).Yields q := bind fun r _ _ => hf r.value

theorem andThenSome {x : Guarded (Option α)} {f : Option α → Guarded β}
    (hx : x.Yields fun v => v.isSome) (hf : ∀ a, (f (some a)).Yields q) : (x >>= f).Yields q := by
  refine andThen hx fun v hv => ?_
  obtain ⟨a, rfl⟩ := Option.isSome_iff_exists.mp hv
  exact hf a

theorem mono {p' : α → Prop} (h : x.Yields p) (hp : ∀ a, p a → p' a) : x.Yields p' :=
  fun r hr he => hp r.value (h r hr he)

theorem pure {a : α} (h : p a) : (Pure.pure a : Guarded α).Yields p := by
  intro r hr _
  cases pure_eq_ok.mp hr
  exact h

theorem mapSome {x : Guarded (Option α)} {g : α → β} (hx : x.Yields fun v => v.isSome) :
    (x >>= fun v => Pure.pure (v.map g)).Yields fun v => v.isSome :=
  andThenSome hx fun _ => pure rfl

theorem ofReported {r : Reported α} (h : r.Yields p) :
    (liftM r : Guarded α).Yields p := by
  intro r' hr he
  cases liftReported_eq_ok.mp hr
  exact h he

theorem ofExcept {e : Except Fault α} (h : ∀ a, e = .ok a → p a) :
    (liftM e : Guarded α).Yields p := by
  intro r hr _
  obtain ⟨a, ha, rfl⟩ := liftExcept_eq_ok.mp hr
  exact h a ha

theorem ofReport {problem : Problem} (hp : problem.severity = .error) {loc : Source.Location}
    {ts : List String} {as : List MessageArg} {g : Unit → Guarded β} :
    ((liftM (report problem loc ts as) : Guarded Unit) >>= g).Yields q := by
  refine bind fun r hr he => ?_
  cases liftReported_eq_ok.mp hr
  exact absurd (by simpa using he) (errorCount_report_append hp loc ts as [])

theorem ofEnsures (h : x.Ensures p) : x.Yields p := fun r hr _ => h r hr

theorem fault {f : Fault} : (Guarded.fault f : Guarded α).Yields p := by
  intro r hr
  cases hr

end Yields

end Guarded

namespace Module

variable {α β : Type}

@[simp]
theorem perform_bind (m : Module) (x : Edit α) (f : α → Edit β) :
    m.perform (x >>= f) = (m.perform x).bind fun y => y.2.perform (f y.1) := by
  unfold perform
  rw [ExceptT.run_bind, StateT.run_bind]
  rcases x.run.run m with ⟨a | e, m'⟩ <;> rfl

@[simp]
theorem perform_get (m : Module) : m.perform (get : Edit Module) = .ok (m, m) := rfl

@[simp]
theorem perform_modify (m : Module) (f : Module → Module) :
    m.perform (modify f : Edit PUnit) = .ok ((), f m) := rfl

@[simp]
theorem perform_discard (m : Module) (x : Edit α) :
    m.perform (discard x) = (m.perform x).map fun y => ((), y.2) := by
  have h : discard x = x >>= fun _ => pure () := map_eq_pure_bind (m := Edit) (fun _ => ()) x
  rw [h, perform_bind]
  rcases m.perform x with e | y <;> rfl

theorem perform_forM_cons (m : Module) (f : α → Edit PUnit) (x : α) (xs : List α) :
    m.perform ((x :: xs).forM f) = (m.perform (f x)).bind fun y => y.2.perform (xs.forM f) :=
  perform_bind m (f x) fun _ => xs.forM f

theorem perform_forM_induction {P : Module → Prop} {f : α → Edit PUnit}
    (hf : ∀ x m m', m.perform (f x) = .ok ((), m') → P m → P m') {xs : List α} {m m' : Module}
    {u : PUnit} (h : m.perform (xs.forM f) = .ok (u, m')) (hm : P m) : P m' := by
  induction xs generalizing m with
  | nil =>
    cases h
    exact hm
  | cons x xs ih =>
    rw [perform_forM_cons] at h
    obtain ⟨⟨v, m₁⟩, hx, h⟩ := except_bind_eq_ok.mp h
    exact ih h (hf x m m₁ hx hm)

theorem perform_checkMutable (m : Module) :
    m.perform checkMutable = if m.finalized then .error (.finalizedModule m.name) else .ok ((), m) := by
  rw [checkMutable, perform_bind, perform_get]
  simp only [Except.bind]
  split <;> rfl

end Module

namespace Guarded

variable {α β γ δ : Type}

/-- Two computations whose results, if both have one, are related, whatever they report. -/
def Agree (x : Guarded α) (y : Guarded β) (rel : α → β → Prop) : Prop :=
  ∀ r s, x = .ok r → y = .ok s → rel r.value s.value

namespace Agree

variable {x : Guarded α} {y : Guarded β} {f : α → Guarded γ} {g : β → Guarded δ}
  {p : α → β → Prop} {q : γ → δ → Prop}

theorem andThen (hx : x.Agree y p) (hf : ∀ a b, p a b → (f a).Agree (g b) q) :
    (x >>= f).Agree (y >>= g) q := by
  intro r s hr hs
  obtain ⟨a, r', ha, hr', rfl⟩ := bind_eq_ok.mp hr
  obtain ⟨b, s', hb, hs', rfl⟩ := bind_eq_ok.mp hs
  exact hf a.value b.value (hx a b ha hb) r' s' hr' hs'

theorem bindSame {g : α → Guarded δ}
    (hf : ∀ r, x = .ok r → (f r.value).Agree (g r.value) q) : (x >>= f).Agree (x >>= g) q := by
  intro r s hr hs
  obtain ⟨a, r', ha, hr', rfl⟩ := bind_eq_ok.mp hr
  obtain ⟨b, s', hb, hs', rfl⟩ := bind_eq_ok.mp hs
  cases ha.symm.trans hb
  exact hf a ha r' s' hr' hs'

theorem same {g : α → Guarded δ} (hf : ∀ a, (f a).Agree (g a) q) : (x >>= f).Agree (x >>= g) q :=
  bindSame fun r _ => hf r.value

theorem reported {r : Reported α} {s : Reported β} (hf : (f r.value).Agree (g s.value) q) :
    ((liftM r : Guarded α) >>= f).Agree ((liftM s : Guarded β) >>= g) q := by
  refine andThen (p := fun a b => a = r.value ∧ b = s.value) ?_ ?_
  · intro r' s' hr hs
    cases liftReported_eq_ok.mp hr
    cases liftReported_eq_ok.mp hs
    exact ⟨rfl, rfl⟩
  · rintro - - ⟨rfl, rfl⟩
    exact hf

theorem pure {a : α} {b : β} (h : p a b) : (Pure.pure a : Guarded α).Agree (Pure.pure b) p := by
  intro r s hr hs
  cases pure_eq_ok.mp hr
  cases pure_eq_ok.mp hs
  exact h

theorem ofExcept {x : Except Fault α} {y : Except Fault β}
    (h : ∀ a b, x = .ok a → y = .ok b → p a b) :
    (liftM x : Guarded α).Agree (liftM y : Guarded β) p := by
  intro r s hr hs
  obtain ⟨a, ha, rfl⟩ := liftExcept_eq_ok.mp hr
  obtain ⟨b, hb, rfl⟩ := liftExcept_eq_ok.mp hs
  exact h a b ha hb

theorem ofEnsures {p₁ : α → Prop} {p₂ : β → Prop} (hx : x.Ensures p₁) (hy : y.Ensures p₂)
    (h : ∀ a b, p₁ a → p₂ b → p a b) : x.Agree y p :=
  fun r s hr hs => h r.value s.value (hx r hr) (hy s hs)

theorem gives (h : x.Agree y p) {a : α} {b : β} (hx : x.Gives a) (hy : y.Gives b) : p a b := by
  obtain ⟨ds, hx⟩ := hx
  obtain ⟨es, hy⟩ := hy
  exact h _ _ hx hy

end Agree

end Guarded

end MipsToolchain
