import MipsToolchain.CommandLine.Flag

namespace MipsToolchain.CommandLine

inductive ArgumentError where
  | badForm (argument : String)
  | unknownFlag (name : String)
  | unknownLetter (letter : Char) (letters : String)
  | missingValue (argument : String)
  | missingLetterValue (letter : Char) (letters : String)
  | value (value : String) (flag : Flag) (e : ValueError)
deriving DecidableEq, Repr

def ArgumentError.message : ArgumentError → String
  | badForm a => "bad flag syntax: " ++ a
  | unknownFlag n => "unknown flag: --" ++ n
  | unknownLetter c letters => "unknown shorthand flag: " ++ Text.quotedChar c ++ " in -" ++ letters
  | missingValue a => "flag needs an argument: " ++ a
  | missingLetterValue c letters =>
    "flag needs an argument: " ++ Text.quotedChar c ++ " in -" ++ letters
  | value v f e =>
    "invalid argument " ++ Text.quoted v ++ " for " ++ Text.quoted f.title ++ " flag: " ++ e.message

structure Arguments where
  options : Options := {}
  operands : List String := []
deriving DecidableEq, Repr

def flagNamed? (flags : List Flag) (name : String) : Option Flag := flags.find? (·.name = name)

def flagLettered? (flags : List Flag) (c : Char) : Option Flag := flags.find? (·.letter? = some c)

def setFlag (o : Options) (f : Flag) (v : String) : Except ArgumentError Options :=
  (o.set f v).mapError (.value v f)

def splitEquals (cs : List Char) : List Char × Option (List Char) :=
  match cs.dropWhile (· ≠ '=') with
  | [] => (cs, none)
  | _ :: r => (cs.takeWhile (· ≠ '='), some r)

/-- Read a flag that is given by its name. What is left of the arguments comes with the result. -/
def readNamed (flags : List Flag) (o : Options) (word : List Char) (rest : List String) :
    Except ArgumentError (Options × List String) :=
  let argument := "--" ++ String.ofList word
  if word.head?.any fun c => c = '-' || c = '=' then .error (.badForm argument)
  else
    let (name, joined) := splitEquals word
    match flagNamed? flags (String.ofList name) with
    | none => .error (.unknownFlag (String.ofList name))
    | some f =>
      match joined, f.isSwitch, rest with
      | some v, _, _ => (setFlag o f (String.ofList v)).map (·, rest)
      | none, true, _ => (setFlag o f "true").map (·, rest)
      | none, false, v :: rest => (setFlag o f v).map (·, rest)
      | none, false, [] => .error (.missingValue argument)

/-- The character of the first byte of a letter. -/
def firstByte (c : Char) : Char :=
  match String.utf8EncodeChar c with
  | b :: _ => Char.ofNat b.toNat
  | [] => c

/-- Read flags that are given by their letters. A flag that takes a value takes all that follows. -/
def readLetters (flags : List Flag) (o : Options) :
    List Char → List String → Except ArgumentError (Options × List String)
  | [], rest => .ok (o, rest)
  | c :: cs, rest =>
    if "test.".toList.isPrefixOf (c :: cs) then .ok (o, rest)
    else match flagLettered? flags c with
      | none => .error (.unknownLetter (firstByte c) (String.ofList (c :: cs)))
      | some f =>
        match cs, f.isSwitch, rest with
        | '=' :: d :: ds, _, _ => (setFlag o f (String.ofList (d :: ds))).map (·, rest)
        | _, true, _ =>
          match setFlag o f "true" with
          | .error e => .error e
          | .ok o => readLetters flags o cs rest
        | d :: ds, false, _ => (setFlag o f (String.ofList (d :: ds))).map (·, rest)
        | [], false, v :: rest => (setFlag o f v).map (·, rest)
        | [], false, [] => .error (.missingLetterValue c (String.ofList [c]))

/-- Read the arguments of a command with given flags. Behind two dashes all are operands. -/
def Arguments.parse (flags : List Flag) (args : List String) : Except ArgumentError Arguments :=
  go args.length {} args
where
  go : Nat → Arguments → List String → Except ArgumentError Arguments
    | 0, a, _ => .ok a
    | _, a, [] => .ok a
    | fuel + 1, a, arg :: rest =>
      match arg.toList with
      | ['-', '-'] => .ok { a with operands := a.operands ++ rest }
      | '-' :: '-' :: word => do
        let (options, rest) ← readNamed flags a.options word rest
        go fuel { a with options } rest
      | '-' :: c :: cs => do
        let (options, rest) ← readLetters flags a.options (c :: cs) rest
        go fuel { a with options } rest
      | _ => go fuel { a with operands := a.operands ++ [arg] } rest

end MipsToolchain.CommandLine
