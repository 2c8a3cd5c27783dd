import MipsToolchain.Link.Image
import MipsToolchain.ObjectFile.Format

namespace MipsToolchain.ObjectFile

inductive WriteError where
  | notFinalized (name : String)
  | failed (name : String)
  | unrepresentable (sectionName : Name)
deriving DecidableEq, Repr

def WriteError.message : WriteError → String
  | notFinalized name => s!"module {name} has not been finalized"
  | failed name => s!"module {name} failed to assemble"
  | unrepresentable n => "section " ++ n.text ++ " cannot be represented"

structure Tables where
  relocations : List RelocationEntry := []
  references : List SymbolEntry := []
  definitions : List SymbolEntry := []
  strings : StringTable := .empty
deriving DecidableEq, Repr

def idOfName (n : Name) : Except WriteError UInt8 :=
  match StandardSection.ofName? n with
  | some s => .ok (sectionId s)
  | none => .error (.unrepresentable n)

def symbolEntry (s : Symbol) (nameIndex : UInt32) (objectIndex : UInt16) :
    Except WriteError SymbolEntry := do
  let flags := s.binding.code.toUInt32 <<< 5 ||| s.type.code.toUInt32 <<< 8
  match s.address with
  | none => pure ⟨flags, 0, nameIndex, objectIndex⟩
  | some a =>
    let id ← if a.isRelocatable then idOfName a.sectionName else pure 0
    pure ⟨flags ||| definedFlag ||| id.toUInt32, Isa.lowWord a.value, nameIndex, objectIndex⟩

namespace Tables

def addDefinition (t : Tables) (objectIndex : UInt16) (s : Symbol) : Except WriteError Tables := do
  let (index, strings) := t.strings.add s.name
  let entry ← symbolEntry s index objectIndex
  pure { t with definitions := t.definitions ++ [entry], strings }

/-- A reference to a section becomes a relocation, and all others keep the name. -/
def addReference (m : Module) (t : Tables) (r : Reference) : Except WriteError Tables := do
  let location ← idOfName r.location.sectionName
  let value := Isa.lowWord r.location.value
  if m.isSectionName r.symbol then
    let target ← idOfName r.symbol
    let entry := ⟨value, location, r.kind.code ||| target <<< 4⟩
    pure { t with relocations := t.relocations ++ [entry] }
  else
    let (index, strings) := t.strings.add r.symbol
    let entry := ⟨location.toUInt32 ||| r.kind.code.toUInt32 <<< 8, value, index, 0⟩
    pure { t with references := t.references ++ [entry], strings }

def addSectionStart (t : Tables) (s : Section) : Except WriteError Tables := do
  let id ← idOfName s.name
  let (index, strings) := t.strings.add s.name
  let entry := ⟨id.toUInt32 ||| definedFlag ||| sectionStartFlag,
    s.virtualAddress.toUInt32, index, 0⟩
  pure { t with definitions := t.definitions ++ [entry], strings }

def encode (t : Tables) : List UInt8 :=
  t.relocations.flatMap (·.encode) ++ t.references.flatMap (·.encode)
    ++ t.definitions.flatMap (·.encode) ++ t.strings.encode

end Tables

def checkSections (m : Module) : Except WriteError Unit :=
  m.sections.forM fun s => discard (idOfName s.name)

def sectionSizes (m : Module) : List UInt32 :=
  StandardSection.names.map fun n => (m.offset n).toUInt32

def contents (m : Module) : List UInt8 :=
  (StandardSection.all.filter hasContents).flatMap fun s =>
    match m.section? s.name with
    | some t => t.bytes.data.toList
    | none => []

def assemble (m : Module) (t : Tables) (flags entry : UInt32) : List UInt8 :=
  let order := if m.order = .little then littleFlag else 0
  let header : Header :=
    { magic, version := formatVersion, flags := flags ||| order, entry
      sizes := sectionSizes m
      relocations := t.relocations.length.toUInt32
      references := t.references.length.toUInt32
      definitions := t.definitions.length.toUInt32
      strings := t.strings.encode.length.toUInt32 }
  header.encode ++ contents m ++ t.encode

def marshal (m : Module) : Except WriteError (List UInt8) := do
  if !m.finalized then throw (.notFinalized m.name)
  if m.failed then throw (.failed m.name)
  checkSections m
  let t ← m.symbols.foldlM (Tables.addDefinition · 0) {}
  let t ← m.references.foldlM (Tables.addReference m) t
  pure (assemble m t 0 0)

/-- The executable file of a program. It gives the addresses of sections and exported symbols. -/
def marshalProgram (p : Program) : Except WriteError (List UInt8) := do
  checkSections p.image
  let t ← p.image.sections.foldlM Tables.addSectionStart {}
  let t ← p.image.symbols.foldlM (fun t s => t.addDefinition (index s) s) t
  pure (assemble p.image t executableFlag p.entry)
where
  index (s : Symbol) : UInt16 := (((p.globals.get? s.name).map Global.module).getD 0).toUInt16

end MipsToolchain.ObjectFile
