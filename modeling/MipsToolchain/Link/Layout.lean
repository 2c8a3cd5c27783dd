import MipsToolchain.Diagnostic.Reported
import MipsToolchain.Object.Module
import MipsToolchain.Settings.Basic

namespace MipsToolchain

/-- The least multiple of a power of two that is not below a number. -/
def alignUp (n boundary : Nat) : Nat :=
  (n + (blockSize boundary - 1)) / blockSize boundary * blockSize boundary

theorem le_alignUp (n boundary : Nat) : n ≤ alignUp n boundary := by
  have hp := blockSize_pos boundary
  have h := Nat.div_add_mod (n + (blockSize boundary - 1)) (blockSize boundary)
  have hm := Nat.mod_lt (n + (blockSize boundary - 1)) hp
  unfold alignUp
  rw [Nat.mul_comm]
  omega

theorem alignUp_lt (n boundary : Nat) : alignUp n boundary < n + blockSize boundary := by
  have hp := blockSize_pos boundary
  have h := Nat.div_mul_le_self (n + (blockSize boundary - 1)) (blockSize boundary)
  unfold alignUp
  omega

theorem dvd_alignUp (n boundary : Nat) : blockSize boundary ∣ alignUp n boundary :=
  Nat.dvd_mul_left _ _

theorem alignUp_zero (n : Nat) : alignUp n 0 = n := by
  simp [alignUp, blockSize]

structure OutputSection where
  name : Name
  flags : SectionFlags
  alignment : Nat
  /-- Where the contribution of each module starts. A module without such a section contributes
  nothing, at a place of its own. -/
  offsets : List Nat
  size : Nat
  address : Nat
deriving DecidableEq, Repr

namespace OutputSection

/-- Where the contributions of modules start from a given offset on, and where they end. -/
def contributions (n : Name) : Nat → List Module → List Nat × Nat
  | cursor, [] => ([], cursor)
  | cursor, m :: ms =>
    match m.section? n with
    | none =>
      let (starts, finish) := contributions n cursor ms
      (cursor :: starts, finish)
    | some s =>
      let start := alignUp cursor s.alignment
      let (starts, finish) := contributions n (start + s.length) ms
      (start :: starts, finish)

@[simp]
theorem length_contributions (n : Name) (cursor : Nat) (ms : List Module) :
    (contributions n cursor ms).1.length = ms.length := by
  induction ms generalizing cursor with
  | nil => rfl
  | cons m ms ih =>
    cases h : m.section? n <;> simp [contributions, h, ih]

/-- Join the sections of a name. The first of them decides on the flags. -/
def concatenate (n : Name) (ms : List Module) : OutputSection :=
  let parts := ms.filterMap (·.section? n)
  let (offsets, size) := contributions n 0 ms
  { name := n
    flags := (parts.head?.map (·.flags)).getD (standardFlags n)
    alignment := parts.foldl (fun a s => max a s.alignment) 0
    offsets, size, address := 0 }

def finish (s : OutputSection) : Nat := s.address + s.size

def overlaps (s o : OutputSection) : Bool :=
  s.size != 0 && o.size != 0 && decide (s.address < o.finish) && decide (o.address < s.finish)

end OutputSection

structure Layout where
  sections : List OutputSection
deriving DecidableEq, Repr

namespace Layout

/-- The names of all sections: the standard ones, and then others as they first appear. -/
def sectionNames (ms : List Module) : List Name :=
  (ms.flatMap (·.sections)).foldl
    (fun names s => if s.name ∈ names then names else names ++ [s.name]) StandardSection.names

/-- Give addresses. Executable sections go after one another from the text base on, all others from
the data base on. -/
def place : Nat → Nat → List OutputSection → List OutputSection
  | _, _, [] => []
  | text, data, s :: ss =>
    let address := alignUp (if s.flags.exec then text else data) (max s.alignment 2)
    let placed := { s with address }
    if s.flags.exec then placed :: place placed.finish data ss
    else placed :: place text placed.finish ss

def ofModules (l : LinkSettings) (ms : List Module) : Layout :=
  ⟨place l.textBase.toNat l.dataBase.toNat
    ((sectionNames ms).map (OutputSection.concatenate · ms))⟩

def section? (l : Layout) (n : Name) : Option OutputSection := l.sections.find? (·.name = n)

/-- The final value of an address of the module with the given index. -/
def resolve (l : Layout) (index : Nat) (a : Address) : Except Fault Int64 :=
  if a.isRelocatable then
    match l.section? a.sectionName with
    | some s =>
      (elementAt s.offsets index).map fun start => Int64.ofNat (s.address + start) + a.value
    | none => .error (.unknownSection a.sectionName.text)
  else .ok a.value

def overlapsOf (s : OutputSection) (os : List OutputSection) : Reported Unit :=
  os.forM fun o => do
    if s.overlaps o then
      report .sectionOverlap .none [] [.text s.name, .text o.name]

def checkOverlaps : List OutputSection → Reported Unit
  | [] => pure ()
  | s :: ss => do
    overlapsOf s ss
    checkOverlaps ss

end Layout

end MipsToolchain
