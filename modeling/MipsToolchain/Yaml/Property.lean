import MipsToolchain.Yaml.Scalar
import MipsToolchain.Yaml.Token

namespace MipsToolchain.Yaml

open Scan

def readAnchor : Scan String := do
  let start ← line
  skip
  let name ← readWhile isNameChar
  let rest := (← get).rest
  let ended := endsWord rest || rest.head?.any (· ∈ ['?', ':', ',', ']', '\x7d', '%', '@', '\x60'])
  if name.isEmpty || !ended then fail .anchorName start
  return String.ofList name

def isTagChar (c : Char) : Bool :=
  isNameChar c || c ∈ [';', '/', '?', ':', '@', '&', '=', '+', '$', ',', '.', '!', '~', '*', '\'',
    '(', ')', '[', ']', '%']

def escapedOctet? : List Char → Option UInt8
  | '%' :: a :: b :: _ => (Text.numeral? 16 [a, b]).map (·.toUInt8)
  | _ => none

def readEscapedChar (start : Nat) : Scan (List UInt8) := do
  match escapedOctet? (← look 3) with
  | none => fail .escapedOctet start
  | some first =>
    match Decoded.width? first with
    | none => fail .escapedLeadingOctet start
    | some n =>
      skipN 3
      return first :: (← trailing (n - 1))
where
  trailing : Nat → Scan (List UInt8)
    | 0 => return []
    | n + 1 => do
      match escapedOctet? (← look 3) with
      | none => fail .escapedOctet start
      | some b =>
        if b &&& 0xc0 ≠ 0x80 then fail .escapedTrailingOctet start
        skipN 3
        return b :: (← trailing n)

/-- Read the characters of a tag. There may be none only behind the start of a handle. -/
def readTagName (start : Nat) (head : Option (List Char)) : Scan RawText := do
  let name ← go ((← get).left + 1) []
  if name.isEmpty && head.isNone then fail .tagName start
  return RawText.ofString (String.ofList (head.getD [])) ++ RawText.join name.reverse
where
  go : Nat → List RawText → Scan (List RawText)
    | 0, name => return name
    | fuel + 1, name => do
      match ← look 1 with
      | [] => return name
      | x :: _ =>
        if x = '%' then go fuel (⟨← readEscapedChar start⟩ :: name)
        else if isTagChar x then
          skip
          go fuel (RawText.ofString (String.singleton x) :: name)
        else return name

/-- Read the start of a tag: a name between exclamation marks, or a mark and what follows it. -/
def readTagHandle (directive : Bool) (start : Nat) : Scan (List Char) := do
  if (← look 1).head? ≠ some '!' then fail .tagMark start
  skip
  let name ← readWhile isNameChar
  if (← get).rest.head? = some '!' then
    skip
    return '!' :: name ++ ['!']
  if directive && !name.isEmpty then fail .tagMark start
  return '!' :: name

def readTag : Scan TokenKind := do
  let start ← line
  let kind ← match ← look 2 with
    | _ :: '<' :: _ => do
      skipN 2
      let name ← readTagName start none
      if (← get).rest.head? ≠ some '>' then fail .tagBracket start
      skip
      pure (TokenKind.tag "" name)
    | _ => do
      let handle ← readTagHandle false start
      if 1 < handle.length && handle.getLast? = some '!' then
        pure (.tag (String.ofList handle) (← readTagName start none))
      else
        let name ← readTagName start (some (handle.drop 1))
        pure (if name.isEmpty then .tag "" "!" else .tag "!" name)
  if !endsWord (← look 1) then fail .tagEnd start
  return kind

def readVersionNumber (start : Nat) : Scan Nat := do
  go 3 []
where
  go : Nat → List Char → Scan Nat
    | 0, _ => fail .versionLength start
    | fuel + 1, digits => do
      match ← look 1 with
      | x :: _ =>
        if x.isDigit then
          if digits.length = 2 then fail .versionLength start
          skip
          go fuel (digits ++ [x])
        else finish digits
      | [] => finish digits
  finish (digits : List Char) : Scan Nat :=
    match Text.numeral? 10 digits with
    | some n => return n
    | none => fail .versionNumber start

def readVersionDirective (start : Nat) : Scan TokenKind := do
  skipBlanks
  let major ← readVersionNumber start
  if (← get).rest.head? ≠ some '.' then fail .versionPoint start
  skip
  return .versionDirective major (← readVersionNumber start)

def readTagDirective (start : Nat) : Scan TokenKind := do
  skipBlanks
  let handle ← readTagHandle true start
  if !(← look 1).head?.any isBlank then fail .tagBlank start
  skipBlanks
  let stem ← readTagName start none
  if !endsWord (← look 1) then fail .tagEnd start
  return .tagDirective (String.ofList handle) stem

def readDirective : Scan TokenKind := do
  let start ← line
  skip
  let name ← readWhile isNameChar
  if name.isEmpty then fail .directiveName start
  if !endsWord (← get).rest then fail .directiveCharacter start
  let kind ←
    if name = "YAML".toList then readVersionDirective start
    else if name = "TAG".toList then readTagDirective start
    else fail .unknownDirective start
  endLine start
  return kind

end MipsToolchain.Yaml
