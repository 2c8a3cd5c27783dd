import MipsToolchain.Diagnostic.Basic

namespace MipsToolchain

structure Reported (α : Type) where
  value : α
  diagnostics : List Diagnostic
deriving DecidableEq, Repr

namespace Reported

variable {α β : Type}

instance : Monad Reported where
  pure a := ⟨a, []⟩
  bind x f := ⟨(f x.value).value, x.diagnostics ++ (f x.value).diagnostics⟩

@[simp]
theorem value_pure (a : α) : (pure a : Reported α).value = a := rfl

@[simp]
theorem diagnostics_pure (a : α) : (pure a : Reported α).diagnostics = [] := rfl

@[simp]
theorem value_bind (x : Reported α) (f : α → Reported β) :
    (x >>= f).value = (f x.value).value := rfl

@[simp]
theorem diagnostics_bind (x : Reported α) (f : α → Reported β) :
    (x >>= f).diagnostics = x.diagnostics ++ (f x.value).diagnostics := rfl

instance : LawfulMonad Reported :=
  LawfulMonad.mk' Reported
    (fun x => by
      change (⟨x.value, x.diagnostics ++ []⟩ : Reported _) = x
      simp)
    (fun _ _ => rfl)
    (fun x f g => by
      change (⟨_, _⟩ : Reported _) = ⟨_, _⟩
      simp [List.append_assoc])

end Reported

def report (p : Problem) (location : Source.Location) (tokens : List String)
    (args : List MessageArg) : Reported Unit :=
  ⟨(), [.of p location tokens args]⟩

@[simp]
theorem diagnostics_report (p : Problem) (l : Source.Location) (ts : List String)
    (as : List MessageArg) : (report p l ts as).diagnostics = [.of p l ts as] := rfl

/-- A computation that reports problems and may stop at a fault. -/
def Guarded (α : Type) := Except Fault (Reported α)

namespace Guarded

variable {α β : Type}

instance : Monad Guarded where
  pure a := .ok (pure a)
  bind x f :=
    match x with
    | .error e => .error e
    | .ok r =>
      match f r.value with
      | .error e => .error e
      | .ok s => .ok ⟨s.value, r.diagnostics ++ s.diagnostics⟩

/-- Stop. What was reported so far is lost. -/
def fault (f : Fault) : Guarded α := .error f

instance : MonadLift Reported Guarded := ⟨fun r => .ok r⟩

instance : MonadLift (Except Fault) Guarded := ⟨fun x => x.map pure⟩

end Guarded

end MipsToolchain
