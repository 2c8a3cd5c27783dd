import MipsToolchain.ByteOrder
import MipsToolchain.Yaml.Problem

namespace MipsToolchain.Yaml

inductive Encoding where
  | utf8
  | utf16 (order : ByteOrder)
deriving DecidableEq, Repr

/-- The encoding that the first bytes announce, and how many bytes do so. -/
def Encoding.detect : List UInt8 → Encoding × Nat
  | 0xff :: 0xfe :: _ => (utf16 .little, 2)
  | 0xfe :: 0xff :: _ => (utf16 .big, 2)
  | 0xef :: 0xbb :: 0xbf :: _ => (utf8, 3)
  | _ => (utf8, 0)

def isAllowed (c : Char) : Bool :=
  let n := c.toNat
  n = 9 || n = 10 || n = 13 || (decide (0x20 ≤ n) && decide (n ≤ 0x7e)) || n = 0x85
    || (decide (0xa0 ≤ n) && n ≠ 0xfffe && n ≠ 0xffff)

inductive Decoded where
  | char (c : Char) (size : Nat)
  | wrong (p : Problem)
  /-- The bytes end inside a character, which is a problem if no more follow. -/
  | short (p : Problem)
deriving DecidableEq, Repr

namespace Decoded

def ofCode (code size : Nat) : Decoded :=
  if code.isValidChar then
    let c := Char.ofNat code
    if isAllowed c then char c size else wrong .controlCharacter
  else wrong .invalidCharacter

def width? (b : UInt8) : Option Nat :=
  if b &&& 0x80 = 0 then some 1
  else if b &&& 0xe0 = 0xc0 then some 2
  else if b &&& 0xf0 = 0xe0 then some 3
  else if b &&& 0xf8 = 0xf0 then some 4
  else none

/-- The least code that needs a number of bytes. -/
def leastCode : Nat → Nat
  | 2 => 0x80
  | 3 => 0x800
  | 4 => 0x10000
  | _ => 0

def ofOctets (b : UInt8) (rest : List UInt8) : Decoded :=
  match width? b with
  | none => wrong .leadingOctet
  | some 1 => ofCode b.toNat 1
  | some n =>
    let trailing := rest.take (n - 1)
    if trailing.length < n - 1 then short .incompleteOctets
    else if trailing.any fun t => t &&& 0xc0 ≠ 0x80 then wrong .trailingOctet
    else
      let start := b.toNat % Nat.pow 2 (7 - n)
      let code := trailing.foldl (fun c t => c * 64 + t.toNat % 64) start
      if code < leastCode n then wrong .octetCount else ofCode code n

def unit (order : ByteOrder) (a b : UInt8) : Nat :=
  match order with
  | .big => a.toNat * 256 + b.toNat
  | .little => b.toNat * 256 + a.toNat

def ofUnits (order : ByteOrder) : List UInt8 → Decoded
  | a :: b :: r =>
    let high := unit order a b
    if high / 0x400 = 0x37 then wrong .unexpectedLowHalf
    else if high / 0x400 = 0x36 then
      match r with
      | c :: d :: _ =>
        let low := unit order c d
        if low / 0x400 = 0x37 then ofCode (0x10000 + high % 0x400 * 0x400 + low % 0x400) 4
        else wrong .expectedLowHalf
      | _ => short .incompletePair
    else ofCode high 2
  | _ => short .incompleteUnit

end Decoded

def Encoding.decode (e : Encoding) (b : UInt8) (rest : List UInt8) : Decoded :=
  match e with
  | utf8 => .ofOctets b rest
  | utf16 order => .ofUnits order (b :: rest)

/-- Characters that are taken from the bytes in one step, and what is wrong right behind them. -/
structure Block where
  chars : List Char := []
  defect : Option Problem := none
deriving DecidableEq, Repr

namespace Block

def size : Nat := 512

/-- A defect behind everything that was read before it. -/
def ofDefect (p : Problem) : Block := { defect := some p }

/-- The characters of a part of the bytes, up to a defect or to a character that is cut off. The
number of bytes read and the problem of the cut come with them. -/
def read (e : Encoding) (bytes : List UInt8) : Block × Nat × Option Problem :=
  go bytes.length [] 0 bytes
where
  go : Nat → List Char → Nat → List UInt8 → Block × Nat × Option Problem
    | fuel + 1, chars, used, b :: rest =>
      match e.decode b rest with
      | .char c n => go fuel (c :: chars) (used + n) (rest.drop (n - 1))
      | .wrong p => (⟨chars.reverse, some p⟩, used, none)
      | .short p => (⟨chars.reverse, none⟩, used, some p)
    | _, chars, used, _ => (⟨chars.reverse, none⟩, used, none)

/-- Cut bytes into blocks, where the first one has room for a number of bytes. A character that
does not fit into a block goes to the next one. -/
def cut (e : Encoding) : Nat → Nat → List UInt8 → List Block
  | 0, _, _ => []
  | _, _, [] => []
  | fuel + 1, room, bytes =>
    match read e (bytes.take room) with
    | (block, used, short) =>
      if block.defect.isSome then [block]
      else if (bytes.drop room).isEmpty then block :: (short.map ofDefect).toList
      else block :: cut e fuel size (bytes.drop used)

/-- The blocks of a document. A mark for the encoding belongs to no block, but takes its room. -/
def ofBytes (bytes : List UInt8) : List Block :=
  let (e, mark) := Encoding.detect bytes
  cut e bytes.length (size - mark) (bytes.drop mark)

end Block

end MipsToolchain.Yaml
