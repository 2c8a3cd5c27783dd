import MipsToolchain.Text.Quoted

namespace MipsToolchain

/-- Text as it stands in a file: bytes, some of which may belong to no character. -/
structure RawText where
  bytes : List UInt8
deriving DecidableEq, Repr

namespace RawText

def ofString (s : String) : RawText :=
  ⟨s.toList.flatMap String.utf8EncodeChar⟩

instance : Coe String RawText := ⟨ofString⟩

def empty : RawText := ⟨[]⟩

instance : Inhabited RawText := ⟨empty⟩

def isEmpty (t : RawText) : Bool := t.bytes.isEmpty

instance : Append RawText := ⟨fun a b => ⟨a.bytes ++ b.bytes⟩⟩

@[simp]
theorem bytes_append (a b : RawText) : (a ++ b).bytes = a.bytes ++ b.bytes := rfl

def join (ts : List RawText) : RawText := ⟨ts.flatMap (·.bytes)⟩

def intercalate (between : RawText) (ts : List RawText) : RawText :=
  ⟨between.bytes.intercalate (ts.map (·.bytes))⟩

def le (a b : RawText) : Bool := decide (a.bytes ≤ b.bytes)

def continuation? (b : UInt8) : Option Nat :=
  if b &&& 0xc0 = 0x80 then some (b.toNat % 64) else none

def scalar? (least code : Nat) : Option Char :=
  if least ≤ code ∧ code.isValidChar then some (Char.ofNat code) else none

def firstChar? : List UInt8 → Option (Char × Nat)
  | [] => none
  | b :: r =>
    if b < 0x80 then some (Char.ofNat b.toNat, 1)
    else if 0xc0 ≤ b ∧ b < 0xe0 then
      match r with
      | b1 :: _ => do
        let x ← continuation? b1
        let c ← scalar? 0x80 (b.toNat % 32 * 64 + x)
        some (c, 2)
      | _ => none
    else if 0xe0 ≤ b ∧ b < 0xf0 then
      match r with
      | b1 :: b2 :: _ => do
        let x ← continuation? b1
        let y ← continuation? b2
        let c ← scalar? 0x800 ((b.toNat % 16 * 64 + x) * 64 + y)
        some (c, 3)
      | _ => none
    else if 0xf0 ≤ b ∧ b < 0xf8 then
      match r with
      | b1 :: b2 :: b3 :: _ => do
        let x ← continuation? b1
        let y ← continuation? b2
        let z ← continuation? b3
        let c ← scalar? 0x10000 (((b.toNat % 8 * 64 + x) * 64 + y) * 64 + z)
        some (c, 4)
      | _ => none
    else none

/-- The characters of a byte sequence. A byte that belongs to none stands for itself. -/
def pieces (bytes : List UInt8) : List (Except UInt8 Char) :=
  go bytes.length bytes
where
  go : Nat → List UInt8 → List (Except UInt8 Char)
    | 0, _ => []
    | _, [] => []
    | fuel + 1, b :: r =>
      match firstChar? (b :: r) with
      | some (c, n) => .ok c :: go fuel (r.drop (n - 1))
      | none => .error b :: go fuel r

/-- The text of bytes, with U+FFFD for each byte that is no text. -/
def textOf (bytes : List UInt8) : String :=
  String.ofList ((pieces bytes).map fun
    | .ok c => c
    | .error _ => Char.ofNat 0xfffd)

def isText (bytes : List UInt8) : Bool :=
  (pieces bytes).all fun
    | .ok _ => true
    | .error _ => false

def text (t : RawText) : String := textOf t.bytes

instance : ToString RawText := ⟨text⟩

/-- The text in double quotes, where a byte that belongs to no character appears by its number. -/
def quoted (t : RawText) : String :=
  Text.inQuotes ((pieces t.bytes).flatMap fun
    | .ok c => Text.escapeChar c
    | .error b => '\\' :: 'x' :: Text.hexByte b)

end RawText

/-- The name of a symbol or section. Object files store names as bytes, which need not be text. -/
abbrev Name := RawText

end MipsToolchain
