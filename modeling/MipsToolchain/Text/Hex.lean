namespace MipsToolchain.Text

def hex (n : Nat) : String :=
  String.ofList (Nat.toDigits 16 n)

def zeroPadded (width : Nat) (digits : String) : String :=
  String.ofList (List.replicate (width - digits.length) '0') ++ digits

def hexPadded (width n : Nat) : String :=
  zeroPadded width (hex n)

def hexWord (w : UInt32) : String :=
  hexPadded 8 w.toNat

/-- Hexadecimal with a `0x` mark, behind the sign of a negative number. -/
def markedHex (n : Int) : String :=
  if n < 0 then "-0x" ++ hex n.natAbs else "0x" ++ hex n.natAbs

def signed (n : Int) : String :=
  if n < 0 then toString n else "+" ++ toString n

def hexByte (b : UInt8) : List Char :=
  (hexPadded 2 b.toNat).toList

/-- The value of digits in a base, or nothing if one of them is no digit of that base. -/
def digitValue? (base : Nat) (c : Char) : Option Nat :=
  let v :=
    if '0' ≤ c ∧ c ≤ '9' then some (c.toNat - '0'.toNat)
    else if 'a' ≤ c ∧ c ≤ 'z' then some (c.toNat - 'a'.toNat + 10)
    else if 'A' ≤ c ∧ c ≤ 'Z' then some (c.toNat - 'A'.toNat + 10)
    else none
  v.filter (decide <| · < base)

def numeral? (base : Nat) (digits : List Char) : Option Nat :=
  if digits.isEmpty then none
  else
    digits.foldl (fun acc c => acc.bind fun n => (digitValue? base c).map (n * base + ·)) (some 0)

end MipsToolchain.Text
