import MipsToolchain.Text.Hex

namespace MipsToolchain.Yaml

def shortNumber? (cs : List Char) : Option (Nat × List Char) :=
  let digits := (cs.take 2).takeWhile (·.isDigit)
  (Text.numeral? 10 digits).map (·, cs.drop digits.length)

def bounded? (least bound : Nat) (cs : List Char) : Option (Nat × List Char) :=
  (shortNumber? cs).filter fun (n, _) => least ≤ n ∧ n < bound

def part? (sign : Char) (least bound : Nat) (cs : List Char) : Option (Nat × List Char) :=
  match cs with
  | c :: r => if c = sign then bounded? least bound r else none
  | [] => none

def isLeapYear (y : Nat) : Bool := (y % 4 = 0 && y % 100 ≠ 0) || y % 400 = 0

def daysIn (year month : Nat) : Nat :=
  if month = 2 then (if isLeapYear year then 29 else 28)
  else if month ∈ [4, 6, 9, 11] then 30 else 31

def dateRest? (cs : List Char) : Option (List Char) := do
  let year ← if ((cs.take 4).all (·.isDigit)) then Text.numeral? 10 (cs.take 4) else none
  let (month, cs) ← part? '-' 1 13 (cs.drop 4)
  let (day, cs) ← part? '-' 1 32 cs
  if day ≤ daysIn year month then some cs else none

def timeRest? (cs : List Char) : Option (List Char) := do
  let (_, cs) ← bounded? 0 24 cs
  let (_, cs) ← part? ':' 0 60 cs
  let (_, cs) ← part? ':' 0 60 cs
  match cs with
  | c :: d :: r =>
    if (c = '.' || c = ',') && d.isDigit then some (r.dropWhile (·.isDigit)) else some cs
  | _ => some cs

/-- Whether text is an offset from universal time. It may be as long as a day and an hour. -/
def isOffset (cs : List Char) : Bool :=
  match cs with
  | ['Z'] => true
  | [s, a, b, ':', c, d] =>
    (s = '+' || s = '-') && [a, b, c, d].all (·.isDigit) &&
      (Text.numeral? 10 [a, b]).any (· ≤ 24) && (Text.numeral? 10 [c, d]).any (· ≤ 60)
  | _ => false

/-- Whether text reads as a date, or as a date and a time. Spaces or a letter stand between the two,
and only the letter goes with an offset. -/
def isTimestamp (text : String) : Bool :=
  match dateRest? text.toList with
  | none => false
  | some [] => true
  | some (c :: r) =>
    if c = ' ' then timeRest? (r.dropWhile (· = ' ')) == some []
    else (c = 'T' || c = 't') && (timeRest? r).any isOffset

end MipsToolchain.Yaml
