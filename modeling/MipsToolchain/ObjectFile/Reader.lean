import MipsToolchain.ObjectFile.Format

namespace MipsToolchain.ObjectFile

inductive ReadError where
  | truncatedHeader
  | badMagic (number : UInt16)
  | unsupportedVersion (number : UInt16)
  | malformed
  | trailingData
  | stringIndex (index : UInt32)
  | unterminatedString
  | invalidSection (id : UInt8)
  | unrepresentable (sectionName : Name)
  | invalidType (symbol : Name) (code : UInt8)
  | invalidBinding (symbol : Name) (code : UInt8)
  | definedTwice (symbol : Name)
  | sectionAddress (sectionName : Name)
  | inconsistentAddress (sectionName : Name)
  | executableReference
  | invalidKind (code : UInt8)
  | access (e : AccessError)
deriving DecidableEq, Repr

def ReadError.message : ReadError → RawText
  | truncatedHeader => "truncated header"
  | badMagic n => "bad magic number 0x" ++ Text.hexPadded 4 n.toNat
  | unsupportedVersion n => s!"unsupported version {n}"
  | malformed => "malformed object file"
  | trailingData => "trailing data"
  | stringIndex i => s!"string index {i} out of bounds"
  | unterminatedString => "unterminated string"
  | invalidSection id => s!"invalid section identifier {id}"
  | unrepresentable n => "section " ++ n ++ " cannot be represented"
  | invalidType n code => "symbol " ++ n ++ s!" has invalid type {code}"
  | invalidBinding n code => "symbol " ++ n ++ s!" has invalid binding {code}"
  | definedTwice n => "symbol " ++ n ++ " defined twice"
  | sectionAddress n => "section address for " ++ n ++ " in relocatable file"
  | inconsistentAddress n => "inconsistent section address for " ++ n
  | executableReference => "reference in executable file"
  | invalidKind code => s!"invalid relocation kind {code}"
  | access e => e.message

structure File where
  header : Header
  module : Module
  /-- The definitions as they stand in the file. -/
  definitions : List SymbolEntry
deriving DecidableEq

def File.isExecutable (f : File) : Bool := f.header.isExecutable

def isObjectFile (data : List UInt8) : Bool := data.take 2 == bytes16 magic

def number16 (bs : List UInt8) : UInt16 := (ByteOrder.fold bs).toUInt16

def number32 (bs : List UInt8) : UInt32 := ByteOrder.fold bs

def split (n : Nat) (data : List UInt8) : Except ReadError (List UInt8 × List UInt8) :=
  let parts := data.splitAt n
  if parts.1.length = n then .ok parts else .error .malformed

def words32 : List UInt8 → List UInt32
  | a :: b :: c :: d :: r => number32 [a, b, c, d] :: words32 r
  | _ => []

def readHeader (data : List UInt8) : Except ReadError (Header × List UInt8) :=
  let (head, rest) := data.splitAt headerSize
  if head.length < headerSize then .error .truncatedHeader
  else
    let number := number16 (head.take 2)
    let version := number16 ((head.drop 2).take 2)
    let words := words32 (head.drop 4)
    let word (k : Nat) : UInt32 := words.getD k 0
    if number ≠ magic then .error (.badMagic number)
    else if version ≠ formatVersion then .error (.unsupportedVersion version)
    else
      .ok ({ magic := number, version, flags := word 0, entry := word 1
             sizes := (words.drop 2).take 6
             relocations := word 8, references := word 9, definitions := word 10
             strings := word 11 }, rest)

def SymbolEntry.decode (bs : List UInt8) : SymbolEntry :=
  ⟨number32 (bs.take 4), number32 ((bs.drop 4).take 4), number32 ((bs.drop 8).take 4),
    number16 ((bs.drop 12).take 2)⟩

def RelocationEntry.decode (bs : List UInt8) : RelocationEntry :=
  ⟨number32 (bs.take 4), bs.getD 4 0, bs.getD 5 0⟩

def readTable {α : Type} (size : Nat) (decode : List UInt8 → α) :
    Nat → List UInt8 → Except ReadError (List α × List UInt8)
  | 0, data => .ok ([], data)
  | n + 1, data => do
    let (entry, rest) ← split size data
    let (entries, rest) ← readTable size decode n rest
    pure (decode entry :: entries, rest)

structure Parts where
  sections : List (StandardSection × Nat × List UInt8)
  relocations : List RelocationEntry
  references : List SymbolEntry
  definitions : List SymbolEntry
  strings : List UInt8
deriving DecidableEq, Repr

/-- The contents of sections, with their sizes. Empty sections are left out. -/
def readSections :
    List (StandardSection × UInt32) → List UInt8 →
      Except ReadError (List (StandardSection × Nat × List UInt8) × List UInt8)
  | [], data => .ok ([], data)
  | (s, size) :: rest, data => do
    if size = 0 then readSections rest data
    else
      let (bytes, data) ← split (if hasContents s then size.toNat else 0) data
      let (others, data) ← readSections rest data
      pure ((s, size.toNat, bytes) :: others, data)

def readParts (h : Header) (data : List UInt8) : Except ReadError Parts := do
  let (sections, data) ← readSections (StandardSection.all.zip h.sizes) data
  let (relocations, data) ←
    readTable RelocationEntry.size RelocationEntry.decode h.relocations.toNat data
  let (references, data) ← readTable SymbolEntry.size SymbolEntry.decode h.references.toNat data
  let (definitions, data) ← readTable SymbolEntry.size SymbolEntry.decode h.definitions.toNat data
  let (strings, data) ← split h.strings.toNat data
  if data.isEmpty then pure ⟨sections, relocations, references, definitions, strings⟩
  else throw .trailingData

def stringAt (strings : List UInt8) (index : UInt32) : Except ReadError Name :=
  let rest := strings.drop index.toNat
  if rest.isEmpty then .error (.stringIndex index)
  else if rest.contains 0 then .ok ⟨rest.takeWhile (· ≠ 0)⟩
  else .error .unterminatedString

def nameOfId (id : UInt8) : Except ReadError Name :=
  match sectionOfId? id with
  | some s => .ok s.name
  | none => .error (.invalidSection id)

/-- A step on the module of a file that can find the file wrong. -/
abbrev Build := ExceptT ReadError Module.Edit

def Build.check {α : Type} (x : Except ReadError α) : Build α := ExceptT.mk (pure x)

/-- Fill a section, which is aligned to words. -/
def addSection (s : StandardSection) (size : Nat) (bytes : List UInt8) : Build Unit := do
  Module.align s.name 2
  if hasContents s then discard (Module.append s.name bytes.toByteArray)
  else discard (Module.reserve s.name size)

def addSectionStart (h : Header) (n : Name) (e : SymbolEntry) : Build Unit := do
  if !h.isExecutable then throw (.sectionAddress n)
  match StandardSection.ofName? n with
  | none => throw (.unrepresentable n)
  | some s =>
    if sectionId s ≠ e.sectionId then throw (.inconsistentAddress n)
    discard (Module.addSection n s.flags)
    modify (·.updateSection n ({ · with virtualAddress := e.value.toUInt64 }))

/-- Absolute values are addresses in an executable file, and signed numbers in all others. -/
def absoluteValue (h : Header) (v : UInt32) : Int64 :=
  if h.isExecutable then Int64.ofNat v.toNat else Int64.ofInt v.toInt32.toInt

def entryAddress (h : Header) (e : SymbolEntry) : Except ReadError (Option Address) :=
  if !e.isDefined then .ok none
  else if e.sectionId = 0 then .ok (some (.absolute (absoluteValue h e.value)))
  else do
    let n ← nameOfId e.sectionId
    pure (some (.relative n (Int64.ofNat e.value.toNat)))

def addDefinition (h : Header) (strings : List UInt8) (e : SymbolEntry) : Build Unit := do
  let n ← Build.check (stringAt strings e.nameIndex)
  if e.isSectionStart then addSectionStart h n e
  else
    let address ← Build.check (entryAddress h e)
    if SymbolType.constant.code < e.kind then throw (.invalidType n e.kind)
    if Binding.weak.code < e.binding then throw (.invalidBinding n e.binding)
    let fresh ← Module.tryDefine n (.ofCode e.kind) address .none
    if !fresh then throw (.definedTwice n)
    if e.binding ≠ 0 then discard (Module.declare n (.ofCode e.binding))

def addReference (h : Header) (r : Reference) : Build Unit := do
  if h.isExecutable then throw .executableReference
  if !r.kind.isAssigned then throw (.invalidKind r.kind.code)
  match (← get).readWord r.location with
  | .error f => throwThe Fault f
  | .ok (.error e) => throw (.access e)
  | .ok (.ok _) => Module.track r

def addRelocation (h : Header) (e : RelocationEntry) : Build Unit := do
  let location ← Build.check (nameOfId e.sectionId)
  let target ← Build.check (nameOfId e.target)
  addReference h ⟨.relative location (Int64.ofNat e.address.toNat), target, .ofCode e.kind, 0⟩

def addNamedReference (h : Header) (strings : List UInt8) (e : SymbolEntry) : Build Unit := do
  let n ← Build.check (stringAt strings e.nameIndex)
  let location ← Build.check (nameOfId e.sectionId)
  addReference h ⟨.relative location (Int64.ofNat e.value.toNat), n, .ofCode e.kind, 0⟩

/-- Rebuild a module. Definitions come before references, which would mention symbols. -/
def addParts (h : Header) (p : Parts) : Build Unit := do
  p.sections.forM fun (s, size, bytes) => addSection s size bytes
  p.definitions.forM (addDefinition h p.strings)
  p.relocations.forM (addRelocation h)
  p.references.forM (addNamedReference h p.strings)

/-- Read a file and give its module a name. Alignments above that of words and the constants of
references are not in the file. -/
def unmarshal (name : String) (data : List UInt8) : Except Fault (Except ReadError File) :=
  match (do
    let (h, rest) ← readHeader data
    let p ← readParts h rest
    pure (h, p) : Except ReadError (Header × Parts)) with
  | .error e => .ok (.error e)
  | .ok (h, p) =>
    match ({ name, order := h.order : Module }).perform (addParts h p).run with
    | .error f => .error f
    | .ok (.error e, _) => .ok (.error e)
    | .ok (.ok _, m) => .ok (.ok ⟨h, m.finalize, p.definitions⟩)

end MipsToolchain.ObjectFile
