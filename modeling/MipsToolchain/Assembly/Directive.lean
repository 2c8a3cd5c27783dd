import MipsToolchain.Assembly.Environment
import MipsToolchain.Assembly.Statement
import MipsToolchain.Encoding.Pseudo
import MipsToolchain.Expr.Parse
import MipsToolchain.Isa.Field

namespace MipsToolchain

def switchedSection? (directive : String) : Option StandardSection :=
  if directive = ".rdata" then some .rodata
  else StandardSection.all.find? (·.title = directive)

/-- Names of symbols are identifiers other than names of registers, instructions and sections. -/
def isValidSymbolName (name : String) : Bool :=
  Literal.isIdentifier name && (Isa.Register.ofName? name).isNone && !isInstructionName name
    && (switchedSection? name).isNone

namespace StatementBody

def argument (b : StatementBody) (k : Nat) : Except Fault (List Token) := elementAt b.args k

theorem argument_eq_ok {b : StatementBody} {k : Nat} {arg : List Token} :
    b.argument k = .ok arg ↔ b.args[k]? = some arg :=
  elementAt_eq_ok

/-- Where a problem with an argument is reported, which for an empty one is the directive. -/
def origin (b : StatementBody) (arg : List Token) : Token := arg.head?.getD b.head

def reportAt (b : StatementBody) (arg : List Token) (p : Problem) (args : List MessageArg) :
    Reported Unit :=
  report p (b.origin arg).location [(b.origin arg).text] args

def badArgument (b : StatementBody) (arg : List Token) : Reported Unit :=
  b.reportAt arg .directiveArgument [.text b.name]

def expectation (least : Nat) : Option Nat → String
  | none => "at least " ++ toString least
  | some 0 => "no"
  | some most => if least = most then toString least else toString least ++ " or " ++ toString most

def checkCount (b : StatementBody) (least : Nat) (most : Option Nat) : Reported Bool := do
  if least ≤ b.args.length ∧ most.all (b.args.length ≤ ·) then pure true
  else
    report .directiveArgumentCount b.head.location [b.head.text]
      [.text b.name, .text (expectation least most)]
    pure false

theorem le_length_of_checkCount {b : StatementBody} {least : Nat} {most : Option Nat}
    (h : (b.checkCount least most).value = true) : least ≤ b.args.length := by
  unfold checkCount at h
  split at h
  · next hcount => exact hcount.1
  · cases h

def nameArgument (b : StatementBody) (arg : List Token) : Reported (Option Token) :=
  match arg with
  | [t] =>
    if t.kind = .identifier then pure (some t)
    else do
      b.badArgument arg
      pure none
  | _ => do
    b.badArgument arg
    pure none

def stringArgument (b : StatementBody) (arg : List Token) : Reported (Option String) :=
  match arg with
  | [t] =>
    if t.kind = .string then pure (some (Literal.unquote t.text).1)
    else do
      b.badArgument arg
      pure none
  | _ => do
    b.badArgument arg
    pure none

def evaluate (b : StatementBody) (env : Environment) (arg : List Token) :
    Guarded (Option ExprValue) := do
  match ← Expr.parse arg b.head.location with
  | some e => e.eval env.context
  | none => pure none

def constant (b : StatementBody) (env : Environment) (arg : List Token) :
    Guarded (Option Int64) := do
  match ← b.evaluate env arg with
  | none => pure none
  | some v =>
    if v.isRelocatable then
      b.badArgument arg
      pure none
    else pure (some v.number)

end StatementBody

def checkSymbolName (t : Token) : Reported Bool := do
  if isValidSymbolName t.text then pure true
  else
    report .illegalSymbolName t.location [t.text] [.text t.text]
    pure false

namespace Environment

def defineSymbol (env : Environment) (t : Token) (type : SymbolType) (address : Address) :
    Guarded Environment := do
  let (defined, env) ← env.edit (Module.define t.text type address t.location)
  unless defined do
    report .duplicateSymbol t.location [t.text] [.text t.text]
  pure env

def switchDirective (env : Environment) (b : StatementBody) (s : StandardSection) :
    Guarded Environment := do
  if ← b.checkCount 0 (some 0) then env.switch s.name s.flags
  else pure env

def flagsOfLetters : List Char → SectionFlags → Option SectionFlags
  | [], f => some f
  | c :: cs, f =>
    match c with
    | 'a' => flagsOfLetters cs f
    | 'w' => flagsOfLetters cs { f with write := true }
    | 'x' => flagsOfLetters cs { f with exec := true }
    | 'b' => flagsOfLetters cs { f with nobits := true }
    | _ => none

def flagsArgument (b : StatementBody) (arg : List Token) : Reported (Option SectionFlags) := do
  match ← b.stringArgument arg with
  | none => pure none
  | some text =>
    match flagsOfLetters text.toList {} with
    | some f => pure (some f)
    | none =>
      b.badArgument arg
      pure none

def sectionDirective (env : Environment) (b : StatementBody) : Guarded Environment := do
  unless ← b.checkCount 1 (some 2) do return env
  match ← b.nameArgument (← b.argument 0) with
  | none => pure env
  | some t =>
    if b.args.length = 2 then
      match ← flagsArgument b (← b.argument 1) with
      | none => pure env
      | some f => env.switch t.text f
    else env.switch t.text (standardFlags t.text)

/-- A symbol is never both global and weak. -/
def declareBinding (env : Environment) (t : Token) (binding : Binding) : Guarded Environment := do
  let current := ((env.module.symbol? t.text).map (·.binding)).getD .internal
  if current ≠ .internal ∧ current ≠ binding then
    report .bindingConflict t.location [t.text]
      [.text t.text, .text (← current.name), .text (← binding.name)]
    pure env
  else
    let (declared, env) ← env.edit (Module.declare t.text binding)
    if declared then pure env else .fault .unreachable

def bindingArguments (b : StatementBody) (binding : Binding) :
    List (List Token) → Environment → Guarded Environment
  | [], env => pure env
  | arg :: rest, env => do
    match ← b.nameArgument arg with
    | none => bindingArguments b binding rest env
    | some t =>
      if ← checkSymbolName t then
        let env ← env.declareBinding t binding
        bindingArguments b binding rest env
      else bindingArguments b binding rest env

def bindingDirective (env : Environment) (b : StatementBody) (binding : Binding) :
    Guarded Environment := do
  if ← b.checkCount 1 none then bindingArguments b binding b.args env
  else pure env

/-- Define a constant by two arguments. Its value must be known, but may be relative to a
section. -/
def defineConstant (env : Environment) (b : StatementBody) : Guarded Environment := do
  match ← b.nameArgument (← b.argument 0) with
  | none => pure env
  | some t =>
    unless ← checkSymbolName t do return env
    let valueArg ← b.argument 1
    match ← b.evaluate env valueArg with
    | none => pure env
    | some v =>
      if v.reference.isSome then
        b.badArgument valueArg
        pure env
      else env.defineSymbol t .constant v.address

def equateDirective (env : Environment) (b : StatementBody) : Guarded Environment := do
  if ← b.checkCount 2 (some 2) then env.defineConstant b
  else pure env

/-- With two arguments a definition, and with one an option. -/
def setDirective (env : Environment) (b : StatementBody) : Guarded Environment := do
  if b.args.length = 2 then env.defineConstant b
  else
    unless ← b.checkCount 1 (some 1) do return env
    match ← b.nameArgument (← b.argument 0) with
    | none => pure env
    | some t =>
      match t.text with
      | "at" => pure { env with reserveTemporary := true }
      | "noat" => pure { env with reserveTemporary := false }
      | "reorder" => pure { env with reorder := true }
      | "noreorder" => pure { env with reorder := false }
      | option =>
        report .unknownSetOption t.location [t.text] [.text option]
        pure env

inductive DataSize where
  | byte
  | half
  | word
deriving DecidableEq, Repr

namespace DataSize

def bytes : DataSize → Nat
  | byte => 1
  | half => 2
  | word => 4

def encode (s : DataSize) (o : ByteOrder) (v : Int64) : List UInt8 :=
  match s with
  | byte => [v.toUInt64.toUInt8]
  | half => o.halfBytes v.toUInt64.toUInt16
  | word => o.wordBytes (Isa.lowWord v)

end DataSize

def checkInitialised (env : Environment) (b : StatementBody) : Reported Bool := do
  if env.flags.nobits then
    report .dataInBss b.head.location [b.head.text] [.text b.name, .text env.current]
    pure false
  else pure true

/-- The number to store for an argument. A relocatable one leaves a reference. -/
def dataValue (env : Environment) (b : StatementBody) (size : DataSize) (arg : List Token) :
    Guarded (Int64 × Environment) := do
  match ← b.evaluate env arg with
  | none => pure (0, env)
  | some v =>
    if v.isRelocatable then
      if size = .word then
        let env ← env.apply (Module.track ⟨env.location, v.target, .absolute32, v.number⟩)
        pure (v.number, env)
      else
        b.reportAt arg .relocatableData [.int size.bytes]
        pure (0, env)
    else
      let bits := 8 * size.bytes
      unless Isa.fitsSigned v.number bits || Isa.fitsUnsigned v.number bits do
        b.reportAt arg .dataTruncated [.int v.number.toInt, .int size.bytes]
      pure (v.number, env)

def dataArguments (b : StatementBody) (size : DataSize) :
    List (List Token) → Environment → Guarded Environment
  | [], env => pure env
  | arg :: rest, env => do
    let (v, env) ← env.dataValue b size arg
    let bytes := size.encode env.module.order v
    let env ← env.apply (Module.append env.current bytes.toByteArray)
    dataArguments b size rest env

def dataDirective (env : Environment) (b : StatementBody) (size : DataSize) :
    Guarded Environment := do
  unless ← b.checkCount 1 none do return env
  unless ← env.checkInitialised b do return env
  dataArguments b size b.args env

def stringArguments (b : StatementBody) (terminated : Bool) :
    List (List Token) → Environment → Guarded Environment
  | [], env => pure env
  | arg :: rest, env => do
    match ← b.stringArgument arg with
    | none => stringArguments b terminated rest env
    | some text =>
      let bytes := if terminated then text.toByteArray.push 0 else text.toByteArray
      let env ← env.apply (Module.append env.current bytes)
      stringArguments b terminated rest env

def stringDirective (env : Environment) (b : StatementBody) (terminated : Bool) :
    Guarded Environment := do
  unless ← b.checkCount 1 none do return env
  unless ← env.checkInitialised b do return env
  stringArguments b terminated b.args env

/-- Reserve a number of bytes, as far as the section has room. -/
def spaceDirective (env : Environment) (b : StatementBody) : Guarded Environment := do
  unless ← b.checkCount 1 (some 1) do return env
  let arg ← b.argument 0
  match ← b.constant env arg with
  | none => pure env
  | some n =>
    if n < 0 then
      b.reportAt arg .negativeSpace [.int n.toInt]
      pure env
    else if (Module.maxSectionSize : Int) - env.module.offset env.current < n.toInt then
      b.reportAt arg .sectionTooLarge
        [.int n.toInt, .text env.current, .int Module.maxSectionSize]
      pure env
    else env.apply (Module.reserve env.current n.toInt)

def alignDirective (env : Environment) (b : StatementBody) : Guarded Environment := do
  unless ← b.checkCount 1 (some 1) do return env
  let arg ← b.argument 0
  match ← b.constant env arg with
  | none => pure env
  | some n =>
    if n < 0 ∨ (Module.maxAlignment : Int) < n.toInt then
      b.reportAt arg .alignmentRange [.int n.toInt, .int Module.maxAlignment]
      pure env
    else env.apply (Module.align env.current n.toInt.toNat)

def directive (env : Environment) (b : StatementBody) : Guarded Environment :=
  match b.name with
  | ".section" => env.sectionDirective b
  | ".globl" | ".global" | ".extern" => env.bindingDirective b .global
  | ".weak" => env.bindingDirective b .weak
  | ".word" => env.dataDirective b .word
  | ".half" => env.dataDirective b .half
  | ".byte" => env.dataDirective b .byte
  | ".ascii" => env.stringDirective b false
  | ".asciiz" => env.stringDirective b true
  | ".space" => env.spaceDirective b
  | ".align" => env.alignDirective b
  | ".eqv" => env.equateDirective b
  | ".set" => env.setDirective b
  | name =>
    match switchedSection? name with
    | some s => env.switchDirective b s
    | none => do
      report .unknownDirective b.head.location [b.head.text] [.text b.head.text]
      pure env

end Environment

end MipsToolchain
