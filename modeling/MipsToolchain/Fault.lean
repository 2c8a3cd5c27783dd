namespace MipsToolchain

/-- The ways in which an operation can stop because its caller broke its contract. -/
inductive Fault where
  | unreachable
  | finalizedModule (name : String)
  | invalidAlignment (boundary : Nat)
  | operandCount (mnemonic : String) (expected given : Nat)
  | emptyOption
  | notBinary (symbol : String)
  | unknownSection (name : String)
  | inconsistentLayout
  | unavailableInstruction (name : String)
  | inconsistentExpansion
  | divisionByZero
  | outOfRange
  | negativeLength
  | compoundKey
deriving DecidableEq, Repr

namespace Fault

/-- The text of a fault. Faults of arithmetic, of indexing and of comparing have none. -/
def message? : Fault → Option String
  | unreachable => some "unreachable"
  | finalizedModule name => some s!"module {name} is finalized"
  | invalidAlignment boundary => some s!"invalid alignment {boundary}"
  | operandCount mnemonic expected given =>
    some s!"instruction {mnemonic} expects {expected} operands (given {given})"
  | emptyOption => some "cannot unwrap an empty option"
  | notBinary symbol => some s!"operator {symbol} is not binary"
  | unknownSection name => some s!"unknown section {name}"
  | inconsistentLayout => some "inconsistent section layout"
  | unavailableInstruction name =>
    some s!"pseudo-instruction expands to unavailable instruction {name}"
  | inconsistentExpansion => some "inconsistent pseudo-instruction expansion"
  | divisionByZero => none
  | outOfRange => none
  | negativeLength => none
  | compoundKey => none

end Fault

def required {α : Type} : Option α → Except Fault α
  | some a => .ok a
  | none => .error .emptyOption

section ElementAt

variable {α : Type} {xs : List α} {k : Nat}

/-- The element of a list at a place, which has to be there. -/
def elementAt (xs : List α) (k : Nat) : Except Fault α :=
  match xs[k]? with
  | some x => .ok x
  | none => .error .outOfRange

theorem elementAt_eq_ok {x : α} : elementAt xs k = .ok x ↔ xs[k]? = some x := by
  unfold elementAt
  cases xs[k]? <;> simp

theorem elementAt_of_lt (h : k < xs.length) : elementAt xs k = .ok xs[k] :=
  elementAt_eq_ok.mpr (List.getElem?_eq_getElem h)

theorem getElem?_of_drop {x : α} {r : List α} (h : xs.drop k = x :: r) : xs[k]? = some x := by
  rw [← List.head?_drop, h, List.head?_cons]

theorem elementAt_of_drop {x : α} {r : List α} (h : xs.drop k = x :: r) :
    elementAt xs k = .ok x :=
  elementAt_eq_ok.mpr (getElem?_of_drop h)

theorem drop_succ_of_drop {x : α} {r : List α} (h : xs.drop k = x :: r) : xs.drop (k + 1) = r := by
  rw [← List.tail_drop, h, List.tail_cons]

theorem elementAt_fault {f : Fault} (h : elementAt xs k = .error f) : f = .outOfRange := by
  unfold elementAt at h
  cases hx : xs[k]? with
  | some x =>
    rw [hx] at h
    cases h
  | none =>
    rw [hx] at h
    cases h
    rfl

end ElementAt

end MipsToolchain
