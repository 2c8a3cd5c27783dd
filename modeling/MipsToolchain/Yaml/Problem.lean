namespace MipsToolchain.Yaml

inductive Problem where
  | leadingOctet
  | trailingOctet
  | incompleteOctets
  | octetCount
  | invalidCharacter
  | incompleteUnit
  | incompletePair
  | unexpectedLowHalf
  | expectedLowHalf
  | controlCharacter
  | keyNotAllowed
  | valueNotAllowed
  | entryNotAllowed
  | missingColon
  | badStart
  | tooDeep
  | directiveName
  | directiveCharacter
  | unknownDirective
  | versionPoint
  | versionLength
  | versionNumber
  | tagMark
  | tagBlank
  | tagEnd
  | tagBracket
  | tagName
  | escapedOctet
  | escapedLeadingOctet
  | escapedTrailingOctet
  | anchorName
  | lineEnd
  | zeroIndentation
  | tabInBlock
  | tabIndentation
  | unclosedQuote
  | markerInQuotes
  | unknownEscape
  | badHexDigit
  | badCharacterCode
  | duplicateVersion
  | unsupportedVersion
  | duplicateTagHandle
  | undefinedTagHandle
  | expectedDocumentStart
  | expectedKey
  | expectedDash
  | expectedContent
  | expectedMappingEnd
  | expectedSequenceEnd
  | unknownAnchor (name : String)
deriving DecidableEq, Repr

def Problem.message : Problem → String
  | leadingOctet => "invalid leading UTF-8 octet"
  | trailingOctet => "invalid trailing UTF-8 octet"
  | incompleteOctets => "incomplete UTF-8 octet sequence"
  | octetCount => "invalid length of a UTF-8 sequence"
  | invalidCharacter => "invalid Unicode character"
  | incompleteUnit => "incomplete UTF-16 character"
  | incompletePair => "incomplete UTF-16 surrogate pair"
  | unexpectedLowHalf => "unexpected low surrogate area"
  | expectedLowHalf => "expected low surrogate area"
  | controlCharacter => "control characters are not allowed"
  | keyNotAllowed => "mapping keys are not allowed in this context"
  | valueNotAllowed => "mapping values are not allowed in this context"
  | entryNotAllowed => "block sequence entries are not allowed in this context"
  | missingColon => "could not find expected ':'"
  | badStart => "found character that cannot start any token"
  | tooDeep => "exceeded max depth of 10000"
  | directiveName => "could not find expected directive name"
  | directiveCharacter => "found unexpected non-alphabetical character"
  | unknownDirective => "found unknown directive name"
  | versionPoint => "did not find expected digit or '.' character"
  | versionLength => "found extremely long version number"
  | versionNumber => "did not find expected version number"
  | tagMark => "did not find expected '!'"
  | tagBlank => "did not find expected whitespace"
  | tagEnd => "did not find expected whitespace or line break"
  | tagBracket => "did not find the expected '>'"
  | tagName => "did not find expected tag URI"
  | escapedOctet => "did not find URI escaped octet"
  | escapedLeadingOctet => "found an incorrect leading UTF-8 octet"
  | escapedTrailingOctet => "found an incorrect trailing UTF-8 octet"
  | anchorName => "did not find expected alphabetic or numeric character"
  | lineEnd => "did not find expected comment or line break"
  | zeroIndentation => "found an indentation indicator equal to 0"
  | tabInBlock => "found a tab character where an indentation space is expected"
  | tabIndentation => "found a tab character that violates indentation"
  | unclosedQuote => "found unexpected end of stream"
  | markerInQuotes => "found unexpected document indicator"
  | unknownEscape => "found unknown escape character"
  | badHexDigit => "did not find expected hexdecimal number"
  | badCharacterCode => "found invalid Unicode character escape code"
  | duplicateVersion => "found duplicate %YAML directive"
  | unsupportedVersion => "found incompatible YAML document"
  | duplicateTagHandle => "found duplicate %TAG directive"
  | undefinedTagHandle => "found undefined tag handle"
  | expectedDocumentStart => "did not find expected <document start>"
  | expectedKey => "did not find expected key"
  | expectedDash => "did not find expected '-' indicator"
  | expectedContent => "did not find expected node content"
  | expectedMappingEnd => "did not find expected ',' or '\x7d'"
  | expectedSequenceEnd => "did not find expected ',' or ']'"
  | unknownAnchor name => "unknown anchor '" ++ name ++ "' referenced"

/-- A problem and the line that is blamed for it. Line zero is not shown. -/
structure SyntaxError where
  problem : Problem
  line : Nat
deriving DecidableEq, Repr

namespace SyntaxError

/-- Of the first line of a text nothing is blamed: lines count from zero here, and the line where
something starts comes before the line where it goes wrong. -/
def blame (start line : Nat) : Option Nat :=
  if start ≠ 0 then some start else if line ≠ 0 then some line else none

def ofWord (p : Problem) (start line : Nat) : SyntaxError :=
  ⟨p, ((blame start line).map (· + 1)).getD 0⟩

/-- Words that do not go together. The line before is blamed for them. -/
def ofGrouping (p : Problem) (start line : Nat) : SyntaxError :=
  ⟨p, (blame start line).getD 0⟩

/-- A problem that belongs to no line. -/
def ofText (p : Problem) : SyntaxError := ⟨p, 0⟩

def message (e : SyntaxError) : String :=
  if e.line = 0 then "yaml: " ++ e.problem.message
  else s!"yaml: line {e.line}: " ++ e.problem.message

end SyntaxError

end MipsToolchain.Yaml
