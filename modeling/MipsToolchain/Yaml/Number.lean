import MipsToolchain.Text.Hex

namespace MipsToolchain.Yaml

def splitSign (cs : List Char) : Bool × List Char :=
  match cs with
  | '-' :: r => (true, r)
  | '+' :: r => (false, r)
  | _ => (false, cs)

def applySign (negative : Bool) (n : Nat) : Int := if negative then -(n : Int) else n

/-- Digits with a mark for their base. A zero in front marks base eight. -/
def natural? (cs : List Char) : Option Nat :=
  match cs with
  | '0' :: m :: r =>
    match m.toLower with
    | 'x' => Text.numeral? 16 r
    | 'b' => Text.numeral? 2 r
    | 'o' => Text.numeral? 8 r
    | _ => Text.numeral? 8 (m :: r)
  | _ => Text.numeral? 10 cs

def signed? (digits? : List Char → Option Nat) (cs : List Char) : Option Int := do
  let (negative, digits) := splitSign cs
  let n ← digits? digits
  if n < (if negative then 0x8000000000000001 else 0x8000000000000000) then
    some (applySign negative n)
  else none

/-- An unsigned integer of 64 bits, which has no sign in front. -/
def unsigned? (digits? : List Char → Option Nat) (cs : List Char) : Option Int := do
  let n ← digits? cs
  if n < 0x10000000000000000 then some n else none

/-- An integer of 64 bits. Behind a mark for base two or eight there may be a sign. -/
def integer? (cs : List Char) : Option Int :=
  signed? natural? cs <|> unsigned? natural? cs <|>
    match cs with
    | '0' :: 'b' :: r => signed? (Text.numeral? 2) r
    | '0' :: 'o' :: r => signed? (Text.numeral? 8) r
    | _ => none

/-- A number that is written with a decimal point or exponent: its digits, and the power of ten that
they count. -/
structure Decimal where
  negative : Bool
  digits : Nat
  exponent : Int
deriving DecidableEq, Repr

namespace Decimal

/-- An exponent has no more than five digits that count. -/
def exponentOf (digits : List Char) : Option Nat :=
  if digits.isEmpty then none
  else digits.foldl (fun acc c => acc.bind fun n =>
    (Text.digitValue? 10 c).map fun d => if n < 10000 then n * 10 + d else n) (some 0)

def parse? (cs : List Char) : Option Decimal := do
  let (negative, cs) := splitSign cs
  let whole := cs.takeWhile Char.isDigit
  let rest := cs.dropWhile Char.isDigit
  let (fraction, rest) := match rest with
    | '.' :: r => (r.takeWhile Char.isDigit, r.dropWhile Char.isDigit)
    | _ => ([], rest)
  let digits ← Text.numeral? 10 (whole ++ fraction)
  let exponent ← match rest with
    | [] => some 0
    | e :: r =>
      let (down, ds) := splitSign r
      if e = 'e' || e = 'E' then (exponentOf ds).map (applySign down) else none
  some ⟨negative, digits, exponent - fraction.length⟩

def separates : List Char → Bool
  | a :: '_' :: b :: r => a.isDigit && b.isDigit && separates (b :: r)
  | '_' :: _ => false
  | [_, '_'] => false
  | _ :: r => separates r
  | [] => true

/-- The quotient that is nearest to a fraction. A tie goes to the even one. -/
def roundDiv (num den : Nat) : Nat :=
  let q := num / den
  let twice := 2 * (num % den)
  if twice < den || (twice = den && q % 2 = 0) then q else q + 1

/-- A number with 53 binary digits, and the power of two that they count. -/
structure Binary where
  digits : Nat
  exponent : Int
deriving DecidableEq, Repr

/-- The exponent of the least bit, so that there are 53 bits, or fewer for the smallest numbers. -/
def leastBit (num den : Nat) : Int :=
  let e : Int := (num.log2 : Int) - den.log2 - 52
  let reaches : Bool :=
    if e < 0 then decide (Nat.pow 2 52 * den ≤ num * Nat.pow 2 e.natAbs)
    else decide (Nat.pow 2 52 * den * Nat.pow 2 e.natAbs ≤ num)
  max (if reaches then e else e - 1) (-1074)

def nearest (num den : Nat) : Binary :=
  let e := leastBit num den
  if e < 0 then ⟨roundDiv (num * Nat.pow 2 e.natAbs) den, e⟩
  else ⟨roundDiv num (den * Nat.pow 2 e.natAbs), e⟩

def Binary.whole? (b : Binary) : Option Nat :=
  if b.exponent < 0 then some (b.digits / Nat.pow 2 b.exponent.natAbs)
  else if 1100 < b.exponent then none
  else
    let n := b.digits * Nat.pow 2 b.exponent.natAbs
    if n < Nat.pow 2 1024 then some n else none

def whole? (d : Decimal) : Option Int :=
  let size : Int := (Nat.toDigits 10 d.digits).length + d.exponent
  if d.digits = 0 || size < -330 then some 0
  else if 320 < size then none
  else
    let scale := Nat.pow 10 d.exponent.natAbs
    let b := if d.exponent < 0 then nearest d.digits scale else nearest (d.digits * scale) 1
    b.whole?.map (applySign d.negative)

end Decimal

end MipsToolchain.Yaml
