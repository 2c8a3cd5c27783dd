import MipsToolchain.Encoding.Pseudo
import MipsToolchain.Encoding.Word

namespace MipsToolchain

inductive Mnemonic where
  | machine (i : Isa.Instruction)
  | pseudo (p : Pseudo)
deriving DecidableEq, Repr

namespace Mnemonic

def name : Mnemonic → String
  | machine i => i.name
  | pseudo p => p.name

def args : Mnemonic → List Isa.Argument
  | machine i => i.args
  | pseudo p => p.args

def count : Mnemonic → Nat
  | machine _ => 1
  | pseudo p => p.count

def size (m : Mnemonic) : Nat := 4 * m.count

def isPseudo : Mnemonic → Bool
  | machine _ => false
  | pseudo _ => true

end Mnemonic

structure ParsedInstruction where
  mnemonic : Mnemonic
  operands : List SourceOperand
deriving DecidableEq, Repr

structure MachineStep where
  instruction : Isa.Instruction
  operands : List OperandValue
deriving DecidableEq, Repr

def requiredVersions (i : Isa.Instruction) : String :=
  if i.till = .latest then i.since.name ++ " or later"
  else if i.since = i.till then i.since.name
  else i.since.name ++ ".." ++ i.till.name

structure Encoder where
  table : Isa.Table
  pseudo : Bool
deriving DecidableEq, Repr

namespace Encoder

/-- The instruction that a mnemonic stands for. A machine instruction goes before a
pseudo-instruction of its name. -/
def recognise (enc : Encoder) (t : Token) : Reported (Option Mnemonic) :=
  let name := Text.lower t.text
  let found := enc.table.lookup name
  match found, Pseudo.ofName? name with
  | .found i, _ => pure (some (.machine i))
  | _, some p =>
    if enc.pseudo then pure (some (.pseudo p))
    else do
      report .pseudoDisabled t.location [t.text] [.text name]
      pure none
  | .unsupported i, none => do
    report .unsupportedInstruction t.location [t.text]
      [.text name, .text (requiredVersions i), .text enc.table.version.name]
    pure none
  | .unknown, none => do
    report .unknownInstruction t.location [t.text] [.text name]
    pure none

def parseOperand (t : Token) (number : Nat) (a : Isa.Argument) (tokens : List Token) :
    Reported (Option SourceOperand) := do
  match ← SourceOperand.parse tokens t.location with
  | none => pure none
  | some o =>
    if o.form.suits a then pure (some o)
    else
      report .argumentKind o.location [o.text]
        [.int number, .text (Text.lower t.text), .text a.describe]
      pure none

/-- The operands for as many arguments, where every operand is read even if one is wrong. -/
def parseOperands (t : Token) (number : Nat) : (as : List Isa.Argument) →
    (operands : List (List Token)) → operands.length = as.length →
      Reported (Option (List SourceOperand))
  | [], [], _ => pure (some [])
  | a :: as, tokens :: rest, h => do
    let operand ← parseOperand t number a tokens
    let operands ← parseOperands t (number + 1) as rest (Nat.succ.inj h)
    return operand.bind fun o => operands.map (o :: ·)

def parse (m : Mnemonic) (t : Token) (operands : List (List Token)) :
    Reported (Option ParsedInstruction) := do
  if h : operands.length = m.args.length then
    return (← parseOperands t 1 m.args operands h).map (⟨m, ·⟩)
  else
    report .argumentCount t.location [t.text]
      [.text (Text.lower t.text), .int m.args.length, .int operands.length]
    pure none

def evaluate (ctx : EvalContext) (o : SourceOperand) : Guarded (Option OperandValue) := do
  let register := o.form.register?.getD .zero
  match o.form.expr? with
  | none => pure (some { register, origin := some o })
  | some e => return (← e.eval ctx).map fun v => { register, value := v, origin := some o }

/-- The values of operands, each of which is evaluated even if one has none. -/
def evaluateAll (ctx : EvalContext) : List SourceOperand → Guarded (Option (List OperandValue))
  | [] => pure (some [])
  | o :: os => do
    let value ← evaluate ctx o
    let values ← evaluateAll ctx os
    return value.bind fun v => values.map (v :: ·)

def checkConstants : List Isa.Argument → List OperandValue → Guarded Unit
  | [], _ => pure ()
  | a :: as, v :: vs => do
    let n := v.value.number
    if a = .immediate ∧ !v.value.isRelocatable ∧ !Isa.fitsSigned n 32 ∧ !Isa.fitsUnsigned n 32 then
      v.report .immediateTruncated [.int n.toInt, .int 32, .int (Isa.lowWord n).toNat]
    checkConstants as vs
  | _ :: _, [] => .fault .outOfRange

def expandOperand (values : List OperandValue) : ExpansionOperand → Except Fault OperandValue
  | .register r => .ok { register := r }
  | .constant v => .ok { value := .constant v }
  | .whole k => elementAt values k
  | .high k => (elementAt values k).map ({ · with part := .high })
  | .low k => (elementAt values k).map ({ · with part := .low })

def expandStep (t : Isa.Table) (values : List OperandValue)
    (step : String × List ExpansionOperand) : Except Fault MachineStep :=
  match t.lookup step.1 with
  | .found i => return ⟨i, ← step.2.mapM (expandOperand values)⟩
  | _ => .error (.unavailableInstruction step.1)

/-- The machine instructions that an instruction stands for. There have to be as many as it takes
words. -/
def expand (enc : Encoder) (m : Mnemonic) (values : List OperandValue) :
    Except Fault (List MachineStep) :=
  match m with
  | .machine i => .ok [⟨i, values⟩]
  | .pseudo p => do
    let steps ← p.expansion.mapM (expandStep enc.table values)
    if steps.length = p.count then .ok steps else .error .inconsistentExpansion

/-- The fields of a machine instruction. One that cannot be filled is left zero. -/
def encodeFields (loc : Address) :
    List Isa.Argument → List OperandValue → Guarded (List FieldValue)
  | [], _ => pure []
  | a :: as, v :: vs => do
    let field ← v.encode a loc
    let fields ← encodeFields loc as vs
    pure (field :: fields)
  | _ :: _, [] => .fault .outOfRange

def lastReference (fields : List FieldValue) : Option Reference :=
  (fields.filterMap fun f => f.bind (·.2)).getLast?

def encodeStep (loc : Address) (s : MachineStep) : Guarded (EncodedWord × Bool) := do
  let fields ← encodeFields loc s.instruction.args s.operands
  let w ← s.instruction.encode (fields.map fun f => (f.map (·.1)).getD (.ofValue 0))
  pure (⟨w, lastReference fields⟩, fields.all Option.isSome)

def encodeSteps (loc : Address) : List MachineStep → Guarded (List EncodedWord × Bool)
  | [] => pure ([], true)
  | s :: ss => do
    let (w, ok) ← encodeStep loc s
    let (ws, oks) ← encodeSteps (loc.add 4) ss
    pure (w :: ws, ok && oks)

/-- The words of an instruction, and whether they are right. There are as many as the instruction
takes in any case, so that no later address depends on it. -/
def encode (enc : Encoder) (ctx : EvalContext) (p : ParsedInstruction) :
    Guarded (List EncodedWord × Bool) := do
  match ← evaluateAll ctx p.operands with
  | none => pure (List.replicate p.mnemonic.count .zero, false)
  | some values =>
    if let .pseudo q := p.mnemonic then
      checkConstants q.args values
    let steps ← enc.expand p.mnemonic values
    encodeSteps ctx.location steps

end Encoder

end MipsToolchain
