import MipsToolchain.ByteOrder
import MipsToolchain.Object.Reference
import MipsToolchain.Object.Section
import MipsToolchain.Object.Symbol

namespace MipsToolchain

/-- One unit of a program: its sections and symbols in the order of their creation, and the words
that still depend on addresses. A finalized module only changes by relocation. -/
structure Module where
  name : String
  order : ByteOrder
  sections : List Section := []
  symbols : List Symbol := []
  references : List Reference := []
  finalized : Bool := false
  failed : Bool := false
deriving DecidableEq

/-- The distance between addresses that are aligned to a power of two. -/
def blockSize (boundary : Nat) : Nat := Nat.pow 2 boundary

theorem blockSize_pos (boundary : Nat) : 0 < blockSize boundary :=
  Nat.two_pow_pos boundary

namespace Module

/-- The largest alignment, as a power of two. -/
def maxAlignment : Nat := 16

/-- The largest size of a section, which a jump can just cross. -/
def maxSectionSize : Nat := 0x10000000

/-- No request for memory can exceed this many bytes. -/
def addressSpace : Int := 0x1000000000000

def section? (m : Module) (n : Name) : Option Section := m.sections.find? (·.name = n)

def symbol? (m : Module) (n : Name) : Option Symbol := m.symbols.find? (·.name = n)

/-- The current length of a section, which is zero before the section exists. -/
def offset (m : Module) (n : Name) : Nat := ((m.section? n).map Section.length).getD 0

/-- Whether a name stands for a section rather than for a symbol. -/
def isSectionName (m : Module) (n : Name) : Bool :=
  (m.section? n).isSome || n ∈ StandardSection.names

def updateSection (m : Module) (n : Name) (f : Section → Section) : Module :=
  { m with sections := m.sections.map fun s => if s.name = n then f s else s }

def updateSymbol (m : Module) (n : Name) (f : Symbol → Symbol) : Module :=
  { m with symbols := m.symbols.map fun s => if s.name = n then f s else s }

/-- A step on a module. The module as the step leaves it remains also where the step faults. -/
abbrev Edit := ExceptT Fault (StateM Module)

def perform {α : Type} (m : Module) (e : Edit α) : Except Fault (α × Module) :=
  match e.run.run m with
  | (.ok a, m') => .ok (a, m')
  | (.error f, _) => .error f

def checkMutable : Edit Unit := do
  let m ← get
  if m.finalized then throw (.finalizedModule m.name)

/-- The section of a given name, which is created with the given flags if there is none. -/
def addSection (n : Name) (flags : SectionFlags) : Edit Section := do
  match (← get).section? n with
  | some s => pure s
  | none =>
    checkMutable
    let s : Section := ⟨n, flags, 0, 0, .empty⟩
    modify fun m => { m with sections := m.sections ++ [s] }
    pure s

/-- Add bytes at the end of a section. The result is where they start. -/
def append (n : Name) (bytes : ByteArray) : Edit Nat := do
  checkMutable
  let s ← addSection n (standardFlags n)
  modify fun m => m.updateSection n (·.append bytes)
  pure s.length

def appendWord (n : Name) (w : UInt32) : Edit Nat := do
  let bytes := (← get).order.wordBytes w
  append n bytes.toByteArray

def reserve (n : Name) (count : Int) : Edit Nat := do
  if count < 0 then throw .negativeLength
  if addressSpace < count then throw .outOfRange
  append n (zeroBytes count.toNat)

/-- Fill a section with zero bytes up to a multiple of a power of two. -/
def align (n : Name) (boundary : Nat) : Edit Unit := do
  if maxAlignment < boundary then throw (.invalidAlignment boundary)
  let s ← addSection n (standardFlags n)
  modify fun m => m.updateSection n fun s => { s with alignment := max s.alignment boundary }
  let size := blockSize boundary
  let excess := s.length % size
  if excess ≠ 0 then discard (reserve n (size - excess : Nat))

def tryDefine (n : Name) (type : SymbolType) (address : Option Address)
    (origin : Source.Location) : Edit Bool := do
  if ((← get).symbol? n).isSome then pure false
  else
    checkMutable
    let symbol : Symbol := ⟨n, type, .internal, address, false, origin⟩
    modify fun m => { m with symbols := m.symbols ++ [symbol] }
    pure true

/-- Define a symbol that is new or was only mentioned so far. -/
def define (n : Name) (type : SymbolType) (address : Address) (origin : Source.Location) :
    Edit Bool := do
  match (← get).symbol? n with
  | none => tryDefine n type (some address) origin
  | some s =>
    if s.isDefined then pure false
    else
      checkMutable
      modify fun m => m.updateSymbol n fun s =>
        { s with type := type, address := some address, origin := origin }
      pure true

def addMention (n : Name) : Edit Unit :=
  modify fun m => { m with symbols := m.symbols ++ [.mention n] }

/-- Set who can see a symbol. What others can see never becomes internal again. -/
def declare (n : Name) (binding : Binding) : Edit Bool := do
  checkMutable
  match (← get).symbol? n with
  | none =>
    addMention n
    modify (·.updateSymbol n fun s => { s with binding := binding })
    pure true
  | some s =>
    if s.isExported && binding == .internal then pure false
    else
      modify (·.updateSymbol n fun s => { s with binding := binding })
      pure true

/-- Record a word that depends on an address. A symbol that is not known is mentioned by that. -/
def track (r : Reference) : Edit Unit := do
  checkMutable
  let m ← get
  if (m.symbol? r.symbol).isNone && !m.isSectionName r.symbol then addMention r.symbol
  modify fun m => { m with references := m.references ++ [r] }

def finalize (m : Module) : Module := { m with finalized := true }

def markFailed (m : Module) : Module := { m with failed := true }

end Module

end MipsToolchain
