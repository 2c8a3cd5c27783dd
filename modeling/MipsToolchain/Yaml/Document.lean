import MipsToolchain.Yaml.Node
import MipsToolchain.Yaml.TokenStream
import MipsToolchain.Yaml.Value

namespace MipsToolchain.Yaml

structure Outline where
  tokens : TokenStream
  handles : List (String × RawText) := []
  /-- The numbers of the nodes that can be named, the latest first. -/
  anchors : List (String × Nat) := []
  named : List (Nat × Node) := []
  aliases : Nat := 0

abbrev Reading := StateT Outline (Except SyntaxError)

namespace Reading

def onTokens {α : Type} (x : Tokens α) : Reading α := fun o => do
  let (a, tokens) ← x.run o.tokens
  return (a, { o with tokens })

def peek : Reading Token := onTokens Tokens.peek

def take : Reading Unit := onTokens Tokens.take

/-- A part of the document is complete, so that a defect seen ahead comes to light. -/
def settle : Reading Unit := onTokens (Tokens.scan Scan.settle)

def fail {α : Type} (p : Problem) (start line : Nat) : Reading α := throw (.ofGrouping p start line)

structure Properties where
  line : Nat
  anchor : Option String := none
  tag : Option RawText := none

def expand (start line : Nat) (handle : String) (suffix : RawText) : Reading RawText := do
  if handle.isEmpty then return suffix
  match (← get).handles.lookup handle with
  | some stem => return stem ++ suffix
  | none => fail .undefinedTagHandle start line

/-- Read an anchor and a tag in any order, each of which may be left out. The handle of the tag is
looked up only when both have been read. -/
def readProperties : Reading Properties := do
  let t ← peek
  match t.kind with
  | .anchor name =>
    take
    let t' ← peek
    match t'.kind with
    | .tag handle suffix =>
      take
      discard peek
      return ⟨t.line, some name, some (← expand t.line t'.line handle suffix)⟩
    | _ => return ⟨t.line, some name, none⟩
  | .tag handle suffix =>
    take
    let anchor ← match (← peek).kind with
      | .anchor name =>
        take
        discard peek
        pure (some name)
      | _ => pure none
    return ⟨t.line, anchor, some (← expand t.line t.line handle suffix)⟩
  | _ => return ⟨t.line, none, none⟩

def announce (p : Properties) : Reading (Option Nat) := do
  match p.anchor with
  | none => return none
  | some name =>
    let n := (← get).anchors.length
    modify fun o => { o with anchors := (name, n) :: o.anchors }
    return some n

def keep (number : Option Nat) (n : Node) : Reading Node := do
  if let some k := number then modify fun o => { o with named := (k, n) :: o.named }
  return n

/-- The tag of a node, unless there is none or it says nothing. -/
def Properties.tag? (p : Properties) : Option Tag :=
  match p.tag with
  | none => none
  | some t => if t = "!" then none else some (.ofName t)

/-- A scalar. Without a tag its text decides what a plain one is. -/
def scalarNode (p : Properties) (text : String) (plain : Bool) : Node :=
  let standard : Tag :=
    if !plain then .str
    else if text = "<<" then .merge
    else (Value.ofPlain text).tag
  .scalar (p.line + 1) (p.tag?.getD standard) text

def omitted (line : Nat) : Reading Node := do
  settle
  return .missing (line + 1)

/-- A node that is named by an alias must have come before. -/
def readAlias (name : String) (line : Nat) : Reading Node := do
  take
  settle
  match (← get).anchors.lookup name with
  | none => throw (.ofText (.unknownAnchor name))
  | some target =>
    let place := (← get).aliases
    modify fun o => { o with aliases := place + 1 }
    return .reference (line + 1) name target place

mutual

/-- Read a node. A sequence may stand in the column of its key. -/
def readNode : Nat → (block shared : Bool) → Reading Node
  | 0, _, _ => do
    let t ← peek
    fail .expectedContent t.line t.line
  | fuel + 1, block, shared => do
    let t ← peek
    if let .reference name := t.kind then return ← readAlias name t.line
    let p ← readProperties
    let t ← peek
    match t.kind with
    | .scalar text plain =>
      take
      settle
      keep (← announce p) (scalarNode p text plain)
    | .flowSequenceStart =>
      settle
      let number ← announce p
      take
      let items ← readFlowItems fuel t.line true []
      keep number (.sequence (p.line + 1) (p.tag?.getD .seq) items)
    | .flowMappingStart =>
      settle
      let number ← announce p
      take
      let entries ← readFlowEntries fuel t.line true []
      keep number (.mapping (p.line + 1) (p.tag?.getD .map) entries)
    | kind =>
      if shared && kind = .blockEntry then
        settle
        let number ← announce p
        let items ← readSharedItems fuel []
        keep number (.sequence (p.line + 1) (p.tag?.getD .seq) items)
      else if block && kind = .blockSequenceStart then
        settle
        let number ← announce p
        take
        let items ← readItems fuel t.line []
        keep number (.sequence (p.line + 1) (p.tag?.getD .seq) items)
      else if block && kind = .blockMappingStart then
        settle
        let number ← announce p
        take
        let entries ← readEntries fuel t.line []
        keep number (.mapping (p.line + 1) (p.tag?.getD .map) entries)
      else if p.anchor.isSome || p.tag.isSome then
        settle
        keep (← announce p) (scalarNode p "" true)
      else fail .expectedContent p.line t.line

/-- Read the items of a bracketed sequence up to its end. A pair may stand as an item. -/
def readFlowItems : Nat → (start : Nat) → (first : Bool) → List Node → Reading (List Node)
  | 0, start, _, _ => do fail .expectedSequenceEnd start (← peek).line
  | fuel + 1, start, first, items => do
    let t ← peek
    let t ←
      if first || t.kind = .flowSequenceEnd then pure t
      else if t.kind = .flowEntry then do
        take
        peek
      else fail .expectedSequenceEnd start t.line
    match t.kind with
    | .flowSequenceEnd =>
      take
      settle
      return items.reverse
    | .key =>
      take
      settle
      let k ← readPairKey fuel
      let v ← readPairValue fuel
      discard peek
      settle
      readFlowItems fuel start false (.mapping (t.line + 1) .map [(k, v)] :: items)
    | _ =>
      let item ← readNode fuel false false
      readFlowItems fuel start false (item :: items)

/-- Read the key of a pair that stands as an item. What stands in its place is lost. -/
def readPairKey : Nat → Reading Node
  | 0 => do
    let t ← peek
    fail .expectedContent t.line t.line
  | fuel + 1 => do
    let t ← peek
    if t.kind ∈ [.value, .flowEntry, .flowSequenceEnd] then
      take
      omitted t.line
    else readNode fuel false false

def readPairValue : Nat → Reading Node
  | 0 => do
    let t ← peek
    fail .expectedContent t.line t.line
  | fuel + 1 => do
    let t ← peek
    if t.kind ≠ .value then omitted t.line
    else
      take
      if (← peek).kind ∈ [.flowEntry, .flowSequenceEnd] then omitted t.line
      else readNode fuel false false

def readFlowEntries :
    Nat → (start : Nat) → (first : Bool) → List (Node × Node) → Reading (List (Node × Node))
  | 0, start, _, _ => do fail .expectedMappingEnd start (← peek).line
  | fuel + 1, start, first, entries => do
    let t ← peek
    let t ←
      if first || t.kind = .flowMappingEnd then pure t
      else if t.kind = .flowEntry then do
        take
        peek
      else fail .expectedMappingEnd start t.line
    match t.kind with
    | .flowMappingEnd =>
      take
      settle
      return entries.reverse
    | .key =>
      take
      let t ← peek
      let k ←
        if t.kind ∈ [.value, .flowEntry, .flowMappingEnd] then omitted t.line
        else readNode fuel false false
      let v ← readFlowValue fuel
      readFlowEntries fuel start false ((k, v) :: entries)
    | _ =>
      let k ← readNode fuel false false
      let v ← omitted (← peek).line
      readFlowEntries fuel start false ((k, v) :: entries)

def readFlowValue : Nat → Reading Node
  | 0 => do
    let t ← peek
    fail .expectedContent t.line t.line
  | fuel + 1 => do
    let t ← peek
    if t.kind ≠ .value then omitted t.line
    else
      take
      let t ← peek
      if t.kind ∈ [.flowEntry, .flowMappingEnd] then omitted t.line
      else readNode fuel false false

def readItems : Nat → (start : Nat) → List Node → Reading (List Node)
  | 0, start, _ => do fail .expectedDash start (← peek).line
  | fuel + 1, start, items => do
    let t ← peek
    match t.kind with
    | .blockEntry =>
      take
      let item ←
        if (← peek).kind ∈ [.blockEntry, .blockEnd] then omitted t.line
        else readNode fuel true false
      readItems fuel start (item :: items)
    | .blockEnd =>
      take
      settle
      return items.reverse
    | _ => fail .expectedDash start t.line

/-- Read the items of a sequence that stands in the column of its key. -/
def readSharedItems : Nat → List Node → Reading (List Node)
  | 0, items => return items.reverse
  | fuel + 1, items => do
    let t ← peek
    if t.kind = .blockEntry then
      take
      let item ←
        if (← peek).kind ∈ [.blockEntry, .key, .value, .blockEnd] then omitted t.line
        else readNode fuel true false
      readSharedItems fuel (item :: items)
    else
      settle
      return items.reverse

def readEntries : Nat → (start : Nat) → List (Node × Node) → Reading (List (Node × Node))
  | 0, start, _ => do fail .expectedKey start (← peek).line
  | fuel + 1, start, entries => do
    let t ← peek
    match t.kind with
    | .key =>
      take
      let k ← readEntryPart fuel t.line
      let t ← peek
      let v ←
        if t.kind = .value then do
          take
          readEntryPart fuel t.line
        else omitted t.line
      readEntries fuel start ((k, v) :: entries)
    | .blockEnd =>
      take
      settle
      return entries.reverse
    | _ => fail .expectedKey start t.line

def readEntryPart : Nat → (line : Nat) → Reading Node
  | 0, line => fail .expectedContent line line
  | fuel + 1, line => do
    if (← peek).kind ∈ [.key, .value, .blockEnd] then omitted line
    else readNode fuel true true

end

def addHandle (handle : String) (stem : RawText) (line : Nat) : Reading Unit := do
  if ((← get).handles.lookup handle).isSome then fail .duplicateTagHandle 0 line
  modify fun o => { o with handles := o.handles ++ [(handle, stem)] }

def readDirectives : Nat → (versioned : Bool) → Reading Unit
  | 0, _ => return
  | fuel + 1, versioned => do
    let t ← peek
    match t.kind with
    | .versionDirective major minor =>
      if versioned then fail .duplicateVersion 0 t.line
      if major ≠ 1 || minor ≠ 1 then fail .unsupportedVersion 0 t.line
      take
      readDirectives fuel true
    | .tagDirective handle stem =>
      addHandle handle stem t.line
      take
      readDirectives fuel versioned
    | _ => return

def standardHandles : List (String × RawText) := [("!", "!"), ("!!", Tag.stem)]

def isDirective : TokenKind → Bool
  | .versionDirective .. => true
  | .tagDirective .. => true
  | _ => false

/-- Read the first document, if there is one. -/
def readDocument (fuel : Nat) : Reading (Option Node) := do
  discard peek
  take
  settle
  let t ← peek
  if t.kind = .streamEnd then
    settle
    return none
  let explicit := isDirective t.kind || t.kind = .documentStart
  if explicit then readDirectives fuel false
  modify fun o => { o with handles := o.handles ++ standardHandles }
  let t ← peek
  if explicit then
    if t.kind ≠ .documentStart then fail .expectedDocumentStart 0 t.line
    take
  settle
  let t ← peek
  let empty := isDirective t.kind || t.kind ∈ [.documentStart, .documentEnd, .streamEnd]
  let root ← if explicit && empty then omitted t.line else readNode fuel true false
  if (← peek).kind = .documentEnd then take
  settle
  return some root

end Reading

def parse (bytes : List UInt8) : Except SyntaxError (Option Document) := do
  let cursor := Cursor.ofBytes bytes
  let fuel := 16 * (cursor.size + 16)
  let (root, o) ← (Reading.readDocument fuel).run { tokens := { cursor } }
  return root.map fun root => ⟨root, o.named, (cursor.size + 4) * (o.aliases + 1)⟩

end MipsToolchain.Yaml
