import MipsToolchain.Text.Base64
import MipsToolchain.Yaml.Number
import MipsToolchain.Yaml.Tag
import MipsToolchain.Yaml.Timestamp

namespace MipsToolchain.Yaml

/-- What the text of a scalar means. A fraction is known by its whole part, if it has one. -/
inductive Value where
  | null
  | bool (b : Bool)
  | int (n : Int)
  | float (whole : Option Int)
  | timestamp
  | text (t : RawText)
deriving DecidableEq, Repr

inductive ValueError where
  | mismatch (found : Tag) (text : String) (tag : Tag)
  | base64
deriving DecidableEq, Repr

def ValueError.message : ValueError → RawText
  | mismatch found text tag =>
    "yaml: cannot decode " ++ found.name ++ (" \x60" ++ text ++ "\x60 as a ") ++ tag.name
  | base64 => "yaml: !!binary value contains invalid base64 data"

namespace Value

def tag : Value → Tag
  | null => .null
  | bool _ => .bool
  | int _ => .int
  | float _ => .float
  | timestamp => .timestamp
  | text _ => .str

def ofWord? (s : String) : Option Value :=
  if s ∈ ["", "~", "null", "Null", "NULL"] then some null
  else if s ∈ ["true", "True", "TRUE"] then some (bool true)
  else if s ∈ ["false", "False", "FALSE"] then some (bool false)
  else if s ∈ [".nan", ".NaN", ".NAN", ".inf", ".Inf", ".INF", "+.inf", "+.Inf", "+.INF", "-.inf",
      "-.Inf", "-.INF"] then some (float none)
  else none

def ofDecimal? (cs : List Char) : Option Value := do
  let n ← (← Decimal.parse? cs).whole?
  some (float (some n))

/-- The meaning of a number, in which underscores only separate digits. -/
def ofNumber (s : String) : Value :=
  let plain := s.toList.filter (· ≠ '_')
  match integer? plain, ofDecimal? plain with
  | some n, _ => int n
  | none, some v => v
  | none, none => text s

/-- The meaning of text, which may be a date only where dates are expected. -/
def ofText (dates : Bool) (s : String) : Value :=
  match ofWord? s, s.toList with
  | some v, _ => v
  | none, [] => null
  | none, c :: r =>
    if c = '.' then
      if Decimal.separates (c :: r) then (ofDecimal? ((c :: r).filter (· ≠ '_'))).getD (text s)
      else text s
    else if c.isDigit || c = '+' || c = '-' then
      if dates && isTimestamp s then timestamp else ofNumber s
    else text s

def ofPlain : String → Value := ofText true

/-- An integer may be given for a fraction, unless it needs all of the 64 bits. -/
def toFloat? : Value → Option Value
  | int n => if n < 0x8000000000000000 then some (float (some n)) else none
  | _ => none

def ofTagged (t : Tag) (s : String) : Except ValueError Value :=
  if t = .binary then
    match Text.Base64.decode? s.toList with
    | some bytes => .ok (text ⟨bytes⟩)
    | none => .error .base64
  else if t.isChecked then
    let v := ofText (t = .timestamp) s
    if v.tag = t then .ok v
    else match (if t = .float then v.toFloat? else none) with
      | some v => .ok v
      | none => .error (.mismatch v.tag s t)
  else .ok (text s)

/-- Further words for truth and falsehood, which count only where one of the two is wanted. -/
def truth? (t : RawText) : Option Bool :=
  if t.text ∈ ["y", "Y", "yes", "Yes", "YES", "on", "On", "ON"] then some true
  else if t.text ∈ ["n", "N", "no", "No", "NO", "off", "Off", "OFF"] then some false
  else none

def bool? : Value → Option Bool
  | bool b => some b
  | text t => truth? t
  | _ => none

/-- A word of 32 bits. Of a fraction only the whole part counts. -/
def word? : Value → Option UInt32
  | int n => ofInt n
  | float (some n) => ofInt n
  | _ => none
where
  ofInt (n : Int) : Option UInt32 :=
    if 0 ≤ n ∧ n < 0x100000000 then some (UInt32.ofNat n.toNat) else none

end Value

end MipsToolchain.Yaml
