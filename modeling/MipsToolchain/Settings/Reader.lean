import MipsToolchain.Fault
import MipsToolchain.Settings.Basic
import MipsToolchain.Yaml.Document

namespace MipsToolchain.Settings

open Yaml (Node Value Tag)

inductive Target where
  | settings
  | link
  | version
  | order
  | bool
  | word
  | text
deriving DecidableEq, Repr

def Target.name : Target → String
  | settings => "config.Config"
  | link => "config.Link"
  | version => "isa.Version"
  | order => "config.Endian"
  | bool => "bool"
  | word => "uint32"
  | text => "string"

inductive Misfit where
  | value (line : Nat) (tag : Tag) (shown : String) (target : Target)
  | unknownField (line : Nat) (name : RawText) (target : Target)
  | repeatedField (line : Nat) (name : RawText) (target : Target)
  | duplicateKey (line : Nat) (key : String) (first : Nat)
deriving DecidableEq, Repr

/-- A value as a misfit shows it, where more than ten bytes are cut down to seven. -/
def shorten (t : RawText) : RawText :=
  if t.bytes.length > 10 then (⟨t.bytes.take 7⟩ : RawText) ++ "..." else t

def Misfit.message : Misfit → RawText
  | value line tag shown target =>
    let value : RawText :=
      if tag = .seq || tag = .map then shown else " \x60" ++ shorten shown ++ "\x60"
    s!"line {line}: cannot unmarshal " ++ tag.name ++ value ++ (" into " ++ target.name)
  | unknownField line name target =>
    s!"line {line}: field " ++ name ++ (" not found in type " ++ target.name)
  | repeatedField line name target =>
    s!"line {line}: field " ++ name ++ (" already set in type " ++ target.name)
  | duplicateKey line key first =>
    s!"line {line}: mapping key " ++ Text.quoted key ++ s!" already defined at line {first}"

inductive ReadError where
  | malformed (e : Yaml.SyntaxError)
  | value (e : Yaml.ValueError)
  | circular (anchor : String)
  | mergeValue
  | aliasing
  | misfits (ms : List Misfit)
  | version (e : Isa.UnknownVersion)
  | order (e : UnknownByteOrder)
  | invalid (e : InvalidSettings)
deriving DecidableEq, Repr

def ReadError.message : ReadError → RawText
  | malformed e => e.message
  | value e => e.message
  | circular anchor => "yaml: anchor '" ++ anchor ++ "' value contains itself"
  | mergeValue => "yaml: map merge requires map or sequence of maps as the value"
  | aliasing => "yaml: document contains excessive aliasing"
  | misfits ms =>
    "yaml: unmarshal errors:\n  " ++ RawText.intercalate "\n  " (ms.map Misfit.message)
  | version e => e.message
  | order e => e.message
  | invalid e => e.message

structure Progress where
  misfits : List Misfit := []
  visits : Nat := 0
  /-- How many of these were reached through an alias. -/
  distant : Nat := 0

/-- Whether too many nodes are reached through aliases. In long documents fewer of them may be. -/
def Progress.isExcessive (p : Progress) : Bool :=
  decide (100 < p.distant) && decide (1000 < p.visits) &&
    if p.visits ≤ 400000 then decide (99 * p.visits < 100 * p.distant)
    else if 4000000 ≤ p.visits then decide (p.visits < 10 * p.distant)
    else decide ((99 * 3600000 - 89 * (p.visits - 400000)) * p.visits < 360000000 * p.distant)

structure Scope where
  document : Yaml.Document
  aliases : List Nat := []

/-- Reading goes on after a misfit, which is only noted. -/
abbrev Read := ReaderT Scope (StateT Progress (ExceptT ReadError (Except Fault)))

def note (m : Misfit) : Read Unit := modify fun p => { p with misfits := p.misfits ++ [m] }

def fault {α : Type} (f : Fault) : Read α := fun _ _ => ExceptT.lift (.error f)

def visit : Read Unit := do
  let far := if (← read).aliases.isEmpty then 0 else 1
  modify fun p => { p with visits := p.visits + 1, distant := p.distant + far }
  if (← get).isExcessive then throw .aliasing

def enter {α : Type} (n : Node) (k : Node → Read α) : Read α := do
  visit
  match n with
  | .reference _ name target place =>
    let scope ← read
    match (if scope.aliases.contains place then none else scope.document.node? target) with
    | none => throw (.circular name)
    | some n =>
      withReader (fun s => { s with aliases := place :: s.aliases }) do
        visit
        k n
  | n => k n

def misfit (n : Node) (target : Target) : Read Unit :=
  note (.value n.line (n.tag?.getD .null) n.text target)

def duplicates : List Node → List Misfit
  | [] => []
  | k :: ks =>
    (ks.filter k.clashes).map (fun d => .duplicateKey d.line d.text k.line) ++ duplicates ks

/-- Go on with the entries of a mapping, unless it repeats a key. -/
def unlessRepeated {α : Type} (old : α) (entries : List (Node × Node)) (go : Read α) : Read α :=
  match duplicates (entries.map (·.1)) with
  | [] => go
  | repeated => do
    repeated.forM note
    return old

def scalarValue (t : Tag) (s : String) : Read (Value × RawText) :=
  match Value.ofTagged t s with
  | .ok v => return (v, match v with | .text t => t | _ => s)
  | .error e => throw (.value e)

/-- Read a scalar. A null, or a node that does not fit, leaves the setting as it was. -/
def readScalar {α : Type} (target : Target)
    (convert : RawText → Value → Except ReadError (Option α)) (old : α) (n : Node) : Read α :=
  enter n fun n => do
    let unfit : Read α := do
      misfit n target
      return old
    match n with
    | .scalar _ tag text =>
      let (v, content) ← scalarValue tag text
      if v = .null then return old
      match convert content v with
      | .ok (some a) => return a
      | .ok none => unfit
      | .error e => throw e
    | .mapping _ _ entries => unlessRepeated old entries unfit
    | _ => unfit

def readWord : UInt32 → Node → Read UInt32 := readScalar .word fun _ v => .ok v.word?

def readBool : Bool → Node → Read Bool := readScalar .bool fun _ v => .ok v.bool?

def readText : RawText → Node → Read RawText := readScalar .text fun t _ => .ok (some t)

def readVersion : Isa.Version → Node → Read Isa.Version :=
  readScalar .version fun t _ => ((Isa.Version.parse t.text).mapError .version).map some

def readOrder : ByteOrder → Node → Read ByteOrder :=
  readScalar .order fun t _ => ((ByteOrder.parse t).mapError .order).map some

/-- Read a key. One that is null, or that does not fit, is passed over. -/
def readKey : Node → Read (Option RawText) :=
  readScalar .text (fun t _ => .ok (some (some t))) none

structure Filling (α : Type) where
  value : α
  /-- The fields that the mapping itself has set. -/
  done : List RawText := []
  /-- The fields that entries of merged mappings no longer set. -/
  taken : Option (List RawText)
  /-- The value of the last key that merges other mappings. -/
  merge : Option Node := none

structure Shape (α : Type) where
  target : Target
  field : α → RawText → Option (Node → Read α)

variable {α : Type}

def readEntry (shape : Shape α) (f : Filling α) (e : Node × Node) : Read (Filling α) := do
  if e.1.isMerge then return { f with merge := some e.2 }
  match ← readKey e.1 with
  | none => return f
  | some key =>
    if f.taken.any (·.contains key) then return f
    let f := { f with taken := f.taken.map (key :: ·) }
    match shape.field f.value key with
    | none =>
      note (.unknownField e.1.line key shape.target)
      return f
    | some read =>
      if f.done.contains key then
        note (.repeatedField e.1.line key shape.target)
        return f
      return { f with value := ← read e.2, done := key :: f.done }

/-- The keys of a mapping that are text. Collections cannot be compared with other keys. -/
def textKeys (entries : List (Node × Node)) : Read (List RawText) := do
  let keys ← entries.mapM fun (k, _) => enter k fun
    | .scalar _ tag text => do
      match (← scalarValue tag text).1 with
      | .text t => return some t
      | _ => return none
    | .mapping _ _ inner => unlessRepeated none inner (fault .compoundKey)
    | _ => fault .compoundKey
  return keys.filterMap id

/-- The mappings that are merged by a value. They are checked one after the other. -/
def mergedNodes : Node → List Node
  | .sequence _ _ items => items
  | n => [n]

def isMergeable (n : Node) : Read Bool := do
  match n with
  | .mapping .. => return true
  | .reference _ _ target _ => return ((← read).document.node? target).any Node.isMapping
  | _ => return false

/-- Read a mapping, and then what it merges. Of two merged mappings with a key the first sets the
field, and the mapping itself comes before all of them. A null leaves the fields as they were. -/
def readMapping (shape : Shape α) :
    Nat → Option (List RawText) → α → Node → Read (α × Option (List RawText))
  | 0, taken, old, _ => return (old, taken)
  | fuel + 1, taken, old, n => enter n fun n => do
    match n with
    | .mapping _ _ entries => unlessRepeated (old, taken) entries do
      let f ← entries.foldlM (readEntry shape) { value := old, taken }
      match f.merge with
      | none => return (f.value, f.taken)
      | some merged =>
        let inner ← match f.taken with
          | some taken => pure taken
          | none => textKeys entries
        let step (state : α × Option (List RawText)) (n : Node) := do
          if !(← isMergeable n) then throw ReadError.mergeValue
          readMapping shape fuel state.2 state.1 n
        let (value, inner) ← (mergedNodes merged).foldlM step (f.value, some inner)
        return (value, if f.taken.isSome then inner else none)
    | .scalar _ tag text =>
      if (← scalarValue tag text).1 ≠ .null then misfit n shape.target
      return (old, taken)
    | _ =>
      misfit n shape.target
      return (old, taken)

def readFields (shape : Shape α) (old : α) (n : Node) : Read α := do
  return (← readMapping shape ((← read).document.depth) none old n).1

def linkShape : Shape LinkSettings where
  target := .link
  field s key :=
    if key = "text-base" then some fun n => return { s with textBase := ← readWord s.textBase n }
    else if key = "data-base" then
      some fun n => return { s with dataBase := ← readWord s.dataBase n }
    else if key = "entry" then some fun n => return { s with entry := ← readText s.entry n }
    else none

def shape : Shape Settings where
  target := .settings
  field s key :=
    if key = "arch" then some fun n => return { s with version := ← readVersion s.version n }
    else if key = "pseudo" then some fun n => return { s with pseudo := ← readBool s.pseudo n }
    else if key = "endian" then some fun n => return { s with order := ← readOrder s.order n }
    else if key = "werror" then some fun n => return { s with strict := ← readBool s.strict n }
    else if key = "link" then
      some fun n => return { s with link := ← readFields linkShape s.link n }
    else none

def ofDocument (d : Yaml.Document) : ExceptT ReadError (Except Fault) Settings := do
  let read : Read Settings := do
    visit
    readFields shape {} d.root
  let (s, p) ← (read.run ⟨d, []⟩).run {}
  if p.misfits.isEmpty then return s else throw (.misfits p.misfits)

def ofBytes (bytes : List UInt8) : ExceptT ReadError (Except Fault) Settings := do
  match Yaml.parse bytes with
  | .error e => throw (.malformed e)
  | .ok d =>
    let s ← match d with
      | none => pure {}
      | some d => ofDocument d
    match s.validate with
    | .ok s => return s
    | .error e => throw (.invalid e)

def parse (source : String) : ExceptT ReadError (Except Fault) Settings :=
  ofBytes (RawText.ofString source).bytes

end MipsToolchain.Settings
