import MipsToolchain.Text.RawText

namespace MipsToolchain.Yaml

inductive Tag where
  | null
  | bool
  | int
  | float
  | timestamp
  | str
  | binary
  | merge
  | seq
  | map
  | other (name : RawText)
deriving DecidableEq, Repr

namespace Tag

def standard : List Tag := [null, bool, int, float, timestamp, str, binary, merge, seq, map]

def name : Tag → RawText
  | null => "!!null"
  | bool => "!!bool"
  | int => "!!int"
  | float => "!!float"
  | timestamp => "!!timestamp"
  | str => "!!str"
  | binary => "!!binary"
  | merge => "!!merge"
  | seq => "!!seq"
  | map => "!!map"
  | other n => n

def stem : RawText := "tag:yaml.org,2002:"

def shorten (n : RawText) : RawText :=
  if stem.bytes.isPrefixOf n.bytes then "!!" ++ (⟨n.bytes.drop stem.bytes.length⟩ : RawText) else n

def ofName (n : RawText) : Tag :=
  let short := shorten n
  (standard.find? (·.name = short)).getD (other short)

/-- Whether the text of a scalar has to agree with its tag. -/
def isChecked : Tag → Bool
  | null | bool | int | float | timestamp => true
  | _ => false

end Tag

end MipsToolchain.Yaml
