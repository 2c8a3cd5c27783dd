import MipsToolchain.Settings.Basic
import MipsToolchain.Text.Quoted

namespace MipsToolchain.CommandLine

inductive Flag where
  | all
  | config
  | dataBase
  | entry
  | help
  | json
  | noPseudo
  | order
  | output
  | release
  | strict
  | textBase
  | verbose
  | version
deriving DecidableEq, Repr

namespace Flag

def name : Flag → String
  | all => "all"
  | config => "config"
  | dataBase => "data-base"
  | entry => "entry"
  | help => "help"
  | json => "json"
  | noPseudo => "no-pseudo"
  | order => "endian"
  | output => "output"
  | release => "version"
  | strict => "werror"
  | textBase => "text-base"
  | verbose => "verbose"
  | version => "arch"

def letter? : Flag → Option Char
  | all => some 'a'
  | config => some 'c'
  | help => some 'h'
  | output => some 'o'
  | verbose => some 'v'
  | _ => none

/-- What a flag takes. A switch takes nothing, unless a value is joined to it. -/
def operand? : Flag → Option String
  | config | entry | output => some "string"
  | dataBase | textBase => some "uint32"
  | order => some "endian"
  | version => some "version"
  | _ => none

def isSwitch (f : Flag) : Bool := f.operand?.isNone

def common : List Flag :=
  [config, dataBase, entry, json, noPseudo, order, strict, textBase, verbose, version]

def title (f : Flag) : String :=
  match f.letter? with
  | some c => "-" ++ String.singleton c ++ ", --" ++ f.name
  | none => "--" ++ f.name

end Flag

/-- The flags that were given, with the last value of each. -/
structure Options where
  all : Bool := false
  config : String := ""
  dataBase : Option UInt32 := none
  entry : Option String := none
  help : Bool := false
  json : Bool := false
  noPseudo : Option Bool := none
  order : Option ByteOrder := none
  output : Option String := none
  release : Bool := false
  strict : Option Bool := none
  textBase : Option UInt32 := none
  verbose : Bool := false
  version : Option Isa.Version := none
deriving DecidableEq, Repr

inductive ValueError where
  | noTruth (text : String)
  | noNumber (text : String)
  | largeNumber (text : String)
  | order (e : UnknownByteOrder)
  | version (e : Isa.UnknownVersion)
deriving DecidableEq, Repr

def ValueError.message : ValueError → String
  | noTruth text => "strconv.ParseBool: parsing " ++ Text.quoted text ++ ": invalid syntax"
  | noNumber text => "strconv.ParseUint: parsing " ++ Text.quoted text ++ ": invalid syntax"
  | largeNumber text => "strconv.ParseUint: parsing " ++ Text.quoted text ++ ": value out of range"
  | order e => e.message.text
  | version e => e.message

def parseTruth (text : String) : Except ValueError Bool :=
  if text ∈ ["1", "t", "T", "TRUE", "true", "True"] then .ok true
  else if text ∈ ["0", "f", "F", "FALSE", "false", "False"] then .ok false
  else .error (.noTruth text)

/-- The base of a number, and its digits. A zero in front marks base eight. -/
def splitBase (cs : List Char) : Nat × List Char :=
  match cs with
  | '0' :: m :: d :: r =>
    match m.toLower with
    | 'x' => (16, d :: r)
    | 'b' => (2, d :: r)
    | 'o' => (8, d :: r)
    | _ => (8, m :: d :: r)
  | '0' :: r => (8, r)
  | _ => (10, cs)

/-- Underscores stand between digits. A zero in front or a mark for the base counts as a digit. -/
def separatesDigits : Bool → List Char → Bool
  | digit, [] => digit
  | digit, c :: r => if c = '_' then digit && separatesDigits false r else separatesDigits true r

/-- The value of digits, as far as it stays below a bound. -/
def boundedNumeral (text : String) (base bound : Nat) : Nat → List Char → Except ValueError Nat
  | n, [] => .ok n
  | n, c :: r =>
    if c = '_' then boundedNumeral text base bound n r
    else match Text.digitValue? base c with
      | none => .error (.noNumber text)
      | some d =>
        if bound ≤ n * base + d then .error (.largeNumber text)
        else boundedNumeral text base bound (n * base + d) r

def parseWord (text : String) : Except ValueError UInt32 :=
  let (base, digits) := splitBase text.toList
  if text.isEmpty then .error (.noNumber text)
  else match boundedNumeral text base 0x100000000 0 digits with
    | .error e => .error e
    | .ok n =>
      if digits.contains '_' && !separatesDigits (base != 10) digits then .error (.noNumber text)
      else .ok n.toUInt32

def Options.set (o : Options) (f : Flag) (value : String) : Except ValueError Options := do
  match f with
  | .all => return { o with all := ← parseTruth value }
  | .config => return { o with config := value }
  | .dataBase => return { o with dataBase := some (← parseWord value) }
  | .entry => return { o with entry := some value }
  | .help => return { o with help := ← parseTruth value }
  | .json => return { o with json := ← parseTruth value }
  | .noPseudo => return { o with noPseudo := some (← parseTruth value) }
  | .order => return { o with order := some (← (ByteOrder.parse value).mapError .order) }
  | .output => return { o with output := some value }
  | .release => return { o with release := ← parseTruth value }
  | .strict => return { o with strict := some (← parseTruth value) }
  | .textBase => return { o with textBase := some (← parseWord value) }
  | .verbose => return { o with verbose := ← parseTruth value }
  | .version => return { o with version := some (← (Isa.Version.parse value).mapError .version) }

/-- Flags go before settings from elsewhere. -/
def Options.applyTo (o : Options) (s : Settings) : Settings :=
  { version := o.version.getD s.version
    pseudo := (o.noPseudo.map (!·)).getD s.pseudo
    order := o.order.getD s.order
    strict := o.strict.getD s.strict
    link :=
      { textBase := o.textBase.getD s.link.textBase
        dataBase := o.dataBase.getD s.link.dataBase
        entry := (o.entry.map RawText.ofString).getD s.link.entry } }

end MipsToolchain.CommandLine
