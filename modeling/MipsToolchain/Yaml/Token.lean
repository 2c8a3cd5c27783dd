import MipsToolchain.Text.RawText

namespace MipsToolchain.Yaml

/-- The signs and words that a document is made of. Blocks are delimited by indentation, which
shows as tokens too. -/
inductive TokenKind where
  | streamStart
  | streamEnd
  | versionDirective (major minor : Nat)
  | tagDirective (handle : String) (stem : RawText)
  | documentStart
  | documentEnd
  | blockSequenceStart
  | blockMappingStart
  | blockEnd
  | flowSequenceStart
  | flowSequenceEnd
  | flowMappingStart
  | flowMappingEnd
  | blockEntry
  | flowEntry
  | key
  | value
  | reference (name : String)
  | anchor (name : String)
  | tag (handle : String) (suffix : RawText)
  | scalar (text : String) (plain : Bool)
deriving DecidableEq, Repr

structure Token where
  kind : TokenKind
  line : Nat
deriving DecidableEq, Repr

end MipsToolchain.Yaml
