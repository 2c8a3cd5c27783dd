import MipsToolchain.Assembly.Directive
import MipsToolchain.Encoding.Encoder
import MipsToolchain.Settings.Basic
import MipsToolchain.Token.Tokenize

namespace MipsToolchain

namespace Environment

/-- Words and instructions start at a multiple of their size. -/
def alignmentOf (b : StatementBody) : Nat :=
  if b.isInstruction then 2
  else match b.name with
    | ".word" => 2
    | ".half" => 1
    | _ => 0

def defineLabels : List Token → Environment → Guarded Environment
  | [], env => pure env
  | t :: ts, env => do
    if ← checkSymbolName t then
      let env ← env.defineSymbol t .label env.location
      defineLabels ts env
    else defineLabels ts env

/-- Report operands that use the temporary register while it is reserved. -/
def checkTemporary (env : Environment) (operands : List SourceOperand) : Reported Unit := do
  if env.reserveTemporary then
    operands.forM fun o => do
      if o.form.register? = some .assemblerTemporary then
        report .reservedRegister o.location [o.text] []

def storeWords (tracked : Bool) : List EncodedWord → Environment → Except Fault Environment
  | [], env => .ok env
  | w :: ws, env => do
    let env ← match w.reference with
      | some r => if tracked then env.apply (Module.track r) else pure env
      | none => pure env
    let env ← env.apply (Module.appendWord env.current w.value)
    storeWords tracked ws env

/-- Assemble an instruction. One whose operands are wrong still takes its place. -/
def instruction (env : Environment) (enc : Encoder) (b : StatementBody) :
    Guarded Environment := do
  unless env.flags.exec do
    report .notExecutable b.head.location [b.head.text] [.text env.current]
  match ← enc.recognise b.head with
  | none => pure env
  | some m =>
    match ← Encoder.parse m b.head b.args with
    | none => env.apply (Module.reserve env.current m.size)
    | some p =>
      env.checkTemporary p.operands
      let (words, ok) ← enc.encode env.context p
      storeWords ok words env

/-- Assemble a statement. Its labels come after the alignment that its body needs. -/
def statement (env : Environment) (enc : Encoder) (s : Statement) : Guarded Environment := do
  let boundary := (s.body.map alignmentOf).getD 0
  let env ← if 0 < boundary then env.apply (Module.align env.current boundary) else pure env
  let env ← defineLabels s.labels env
  match s.body with
  | none => pure env
  | some b =>
    if b.isDirective then env.directive b
    else if b.isInstruction then env.instruction enc b
    else pure env

/-- Assemble a line of text. A malformed line is skipped. -/
def line (env : Environment) (enc : Encoder) (file : String) (number : Int) (text : String) :
    Guarded Environment := do
  let tokens ← tokenizeLine file number text
  let (s, ok) ← Statement.parse tokens
  if ok then env.statement enc s else pure env

def lines (enc : Encoder) (file : String) :
    Int → List String → Environment → Guarded Environment
  | _, [], env => pure env
  | number, text :: rest, env => do
    let env ← env.line enc file number text
    lines enc file (number + 1) rest env

end Environment

def Settings.encoder (s : Settings) : Encoder := ⟨⟨s.version⟩, s.pseudo⟩

/-- Assemble lines of text into a module. The module is finalized, and failed if an error was
reported. -/
def assembleLines (s : Settings) (name : String) (text : List String) : Guarded Module :=
  match Environment.lines s.encoder name 1 text (.initial { name, order := s.order }) with
  | .error f => .error f
  | .ok r =>
    let ds := Diagnostic.promoteIf s.strict r.diagnostics
    let m := if 0 < Diagnostic.errorCount ds then r.value.module.markFailed else r.value.module
    .ok ⟨m.finalize, ds⟩

def assembleFile (s : Settings) (f : Source.File) : Guarded Module :=
  assembleLines s f.name f.lines

def assembleFiles (s : Settings) : List Source.File → Guarded (List Module)
  | [] => pure []
  | f :: fs => do
    let m ← assembleFile s f
    let ms ← assembleFiles s fs
    pure (m :: ms)

structure Cancelled where
deriving DecidableEq, Repr

def Cancelled.message (_ : Cancelled) : String := "context canceled"

/-- Assemble files, unless that is called off. Without files there is nothing to call off. -/
def assembleAll (s : Settings) (cancelled : Bool) (files : List Source.File) :
    Except Cancelled (Guarded (List Module)) :=
  if cancelled && !files.isEmpty then .error {} else .ok (assembleFiles s files)

end MipsToolchain
