import MipsToolchain.Yaml.Property

namespace MipsToolchain.Yaml

/-- A token that becomes a key if a colon follows it. -/
structure KeySlot where
  possible : Bool := false
  /-- Whether nothing but a key can stand there. -/
  required : Bool := false
  token : Nat := 0
  index : Nat := 0
  line : Nat := 0
  column : Nat := 0
deriving Repr

namespace KeySlot

/-- A key and its colon stand on one line, and not too far from each other. -/
def isStale (k : KeySlot) (c : Cursor) : Bool :=
  decide (k.line < c.line) || decide (k.index + 1024 < c.index)

def missingColon (k : KeySlot) (c : Cursor) : SyntaxError := .ofWord .missingColon k.line c.line

/-- Give up a key whose colon cannot come any more. -/
def refresh (k : KeySlot) (c : Cursor) : Except SyntaxError KeySlot :=
  if k.possible && k.isStale c then
    if k.required then .error (k.missingColon c) else .ok { k with possible := false }
  else .ok k

end KeySlot

structure TokenStream where
  cursor : Cursor
  queue : List Token := []
  taken : Nat := 0
  started : Bool := false
  /-- Whether a key may start at the next token. -/
  keys : Bool := true
  /-- The possible keys, one in the block and one at each level of brackets, the innermost first. -/
  slots : List KeySlot := [{}]
  /-- The tokens that cannot be taken while a key is possible, each with the number of brackets
  around it. -/
  waiting : List (Nat × Nat) := []
  flow : Nat := 0
  indents : List Nat := []

abbrev Tokens := StateT TokenStream (Except SyntaxError)

namespace Tokens

def maxDepth : Nat := 10000

def scan {α : Type} (x : Scan α) : Tokens α := fun s => do
  let (a, cursor) ← x.run s.cursor
  return (a, { s with cursor })

def inFlow : Tokens Bool := return decide (0 < (← get).flow)

def level : Tokens Nat := return (((← get).indents.head?).map (· + 1)).getD 0

def fail {α : Type} (p : Problem) : Tokens α := do
  let line := (← get).cursor.line
  throw (.ofWord p line line)

def push (kind : TokenKind) (line : Nat) : Tokens Unit :=
  modify fun s => { s with queue := s.queue ++ [⟨kind, line⟩] }

/-- Put a token before the one of a given number, or behind all others if that one was taken. -/
def insert (number : Nat) (kind : TokenKind) (line : Nat) : Tokens Unit :=
  modify fun s =>
    let place := if number < s.taken then s.queue.length else number - s.taken
    { s with queue := s.queue.insertIdx place ⟨kind, line⟩ }

def sign (n : Nat) (kind : TokenKind) : Tokens Unit := do
  push kind (← get).cursor.line
  scan (Scan.skipN n)

def word (read : Scan TokenKind) : Tokens Unit := do
  let line := (← get).cursor.line
  push (← scan read) line

def allowKeys (b : Bool) : Tokens Unit := modify fun s => { s with keys := b }

def setSlot (k : KeySlot) : Tokens Unit :=
  modify fun s => { s with slots := k :: s.slots.drop 1 }

def slot : Tokens KeySlot := return (← get).slots.headD {}

def release (number : Nat) : Tokens Unit :=
  modify fun s => { s with waiting := s.waiting.eraseP (·.1 = number) }

def dropKey : Tokens Unit := do
  let k ← slot
  if k.possible then
    if k.required then throw (k.missingColon (← get).cursor)
    setSlot { k with possible := false }
    release k.token

/-- The next token may become a key, if one is allowed here. -/
def saveKey : Tokens Unit := do
  let s ← get
  if s.keys then
    dropKey
    let c := s.cursor
    let token := s.taken + s.queue.length
    let required := s.flow = 0 && s.indents.head? = some c.column
    setSlot ⟨true, required, token, c.index, c.line, c.column⟩
    modify fun s => { s with waiting := (token, s.flow) :: s.waiting }

/-- Start a block in a column, unless that is the column of the innermost one. The block starts
before the token of a given number, or with the next one. -/
def indent (column : Nat) (number : Option Nat) (kind : TokenKind) (line : Nat) : Tokens Unit := do
  if (← get).flow = 0 && (← level) ≤ column then
    modify fun s => { s with indents := column :: s.indents }
    if maxDepth < (← get).indents.length then
      throw (.ofWord .tooDeep (← slot).line (← get).cursor.line)
    match number with
    | some n => insert n kind line
    | none => push kind line

def dedent (keep : Nat → Bool) : Tokens Unit := do
  let s ← get
  if s.flow = 0 then
    let ended := s.indents.takeWhile (!keep ·)
    let ends := ended.map fun _ => (⟨.blockEnd, s.cursor.line⟩ : Token)
    set { s with indents := s.indents.drop ended.length, queue := s.queue ++ ends }

def closeBlocks : Tokens Unit := do
  dedent fun _ => false
  dropKey
  allowKeys false

def fetchEnd : Tokens Unit := do
  modify fun s =>
    if s.cursor.column = 0 then s
    else { s with cursor := { s.cursor with column := 0, line := s.cursor.line + 1 } }
  closeBlocks
  push .streamEnd (← get).cursor.line

def fetchDirective : Tokens Unit := do
  closeBlocks
  word readDirective

def fetchMarker (kind : TokenKind) : Tokens Unit := do
  closeBlocks
  sign 3 kind

def fetchFlowStart (kind : TokenKind) : Tokens Unit := do
  saveKey
  modify fun s =>
    let c := s.cursor
    let inner : KeySlot := { token := s.taken + s.queue.length, index := c.index, line := c.line,
                             column := c.column }
    { s with slots := inner :: s.slots, flow := s.flow + 1 }
  if maxDepth < (← get).flow then fail .tooDeep
  allowKeys true
  sign 1 kind

/-- Close a bracket. If there was no possible key behind the opening one, that one waits no more. -/
def fetchFlowEnd (kind : TokenKind) : Tokens Unit := do
  dropKey
  if ← inFlow then
    release (← slot).token
    modify fun s => { s with slots := s.slots.drop 1, flow := s.flow - 1 }
  allowKeys false
  sign 1 kind

def fetchFlowEntry : Tokens Unit := do
  dropKey
  allowKeys true
  sign 1 .flowEntry

/-- In a block a sign that starts an entry must stand where a key may stand. -/
def startEntry (kind : TokenKind) (p : Problem) : Tokens Unit := do
  let s ← get
  if s.flow = 0 then
    if !s.keys then fail p
    indent s.cursor.column none kind s.cursor.line

def fetchBlockEntry : Tokens Unit := do
  startEntry .blockSequenceStart .entryNotAllowed
  dropKey
  allowKeys true
  sign 1 .blockEntry

def fetchKey : Tokens Unit := do
  startEntry .blockMappingStart .keyNotAllowed
  dropKey
  allowKeys (!(← inFlow))
  sign 1 .key

/-- A colon makes a key of the token before it, or it starts the value of a key that has a sign. -/
def fetchValue : Tokens Unit := do
  let k ← (← slot).refresh (← get).cursor
  setSlot k
  if k.possible then
    insert k.token .key k.line
    indent k.column (some k.token) .blockMappingStart k.line
    setSlot { k with possible := false }
    release k.token
    allowKeys false
  else
    startEntry .blockMappingStart .valueNotAllowed
    allowKeys (!(← inFlow))
  sign 1 .value

def fetchWord (read : Scan TokenKind) : Tokens Unit := do
  saveKey
  allowKeys false
  word read

def fetchBlockScalar (folded : Bool) : Tokens Unit := do
  dropKey
  allowKeys true
  let level ← level
  word (return .scalar (String.ofList (← readBlock folded level)) false)

def fetchQuoted (quote : Char) : Tokens Unit :=
  fetchWord (return .scalar (String.ofList (← readQuoted quote)) false)

def fetchPlain : Tokens Unit := do
  saveKey
  allowKeys false
  let line := (← get).cursor.line
  let (text, broken) ← scan (readPlain (← inFlow) (← level))
  push (.scalar (String.ofList text) true) line
  if broken then allowKeys true

def startsPlain (inFlow : Bool) : List Char → Bool
  | [] => false
  | x :: r =>
    if x = '-' then !endsWord r
    else if x = '?' || x = ':' then !inFlow && !endsWord r
    else !isBlank x && !isBreak x && !isIndicator x

def fetchContent (ahead : List Char) : Tokens Unit := do
  let inFlow ← inFlow
  let alone := inFlow || endsWord (ahead.drop 1)
  match ahead.head? with
  | some '[' => fetchFlowStart .flowSequenceStart
  | some '\x7b' => fetchFlowStart .flowMappingStart
  | some ']' => fetchFlowEnd .flowSequenceEnd
  | some '\x7d' => fetchFlowEnd .flowMappingEnd
  | some ',' => fetchFlowEntry
  | some '*' => fetchWord (return .reference (← readAnchor))
  | some '&' => fetchWord (return .anchor (← readAnchor))
  | some '!' => fetchWord readTag
  | some '\'' => fetchQuoted '\''
  | some '"' => fetchQuoted '"'
  | head =>
    if head = some '-' && endsWord (ahead.drop 1) then fetchBlockEntry
    else if head = some '?' && alone then fetchKey
    else if head = some ':' && alone then fetchValue
    else if head = some '|' && !inFlow then fetchBlockScalar false
    else if head = some '>' && !inFlow then fetchBlockScalar true
    else if startsPlain inFlow ahead then fetchPlain
    else fail .badStart

def fetch : Tokens Unit := do
  discard (scan (Scan.look 1))
  if !(← get).started then
    modify fun s => { s with started := true }
    push .streamStart (← get).cursor.line
  else
    allowKeys (← scan (Scan.toToken (← inFlow) (← get).keys))
    let column := (← get).cursor.column
    dedent (· ≤ column)
    let ahead ← scan (Scan.look 4)
    let c := (← get).cursor
    match ahead.head? with
    | none => fetchEnd
    | some x =>
      if c.column = 0 && x = '%' then fetchDirective
      else if c.atMarker then fetchMarker (if x = '-' then .documentStart else .documentEnd)
      else
        fetchContent ahead
        if ((← get).queue.getLast?).map (·.kind) ≠ some .blockEntry then scan Scan.skipLineComment

/-- Whether the next token has to wait, because there may be a key on its level. -/
def isWaiting : Tokens Bool := do
  let s ← get
  match s.waiting.lookup s.taken with
  | none => return false
  | some level =>
    let place := s.flow - level
    match (if level ≤ s.flow then s.slots[place]? else none) with
    | none => return false
    | some k =>
      let k ← k.refresh s.cursor
      if !k.possible then set { s with slots := s.slots.set place k }
      return k.possible

/-- The next token. Before it can be taken, two more are known, and whether it is a key. -/
def peek : Tokens Token := do
  go ((← get).cursor.left + 8)
where
  go : Nat → Tokens Token
    | 0 => next
    | fuel + 1 => do
      let s ← get
      if s.queue.length < 3 then
        fetch
        go fuel
      else if ← isWaiting then
        fetch
        go fuel
      else next
  next : Tokens Token := return (← get).queue.headD ⟨.streamEnd, 0⟩

def take : Tokens Unit :=
  modify fun s => { s with queue := s.queue.drop 1, taken := s.taken + 1 }

end Tokens

end MipsToolchain.Yaml
