import MipsToolchain.Proofs.Assembly.Completion
import MipsToolchain.Proofs.Assembly.Symbols
import MipsToolchain.Proofs.Encoding.Silence
import MipsToolchain.Proofs.Encoding.Success
import MipsToolchain.Proofs.Token.Offences

namespace MipsToolchain

open Diagnostic

namespace Expr

theorem parse_eq_none_iff (ts : List Token) (place : Source.Location) :
    (parse ts place).value = none ↔ (parse ts place).diagnostics ≠ [] := by
  rw [(parse_quiet ts place).diagnostics_ne_nil_iff (parse_yields ts place),
    Option.not_isSome_iff_eq_none]

theorem eval_eq_none_iff {e : Expr} {ctx : EvalContext} {r : Reported (Option ExprValue)}
    (h : e.eval ctx = .ok r) : r.value = none ↔ r.diagnostics ≠ [] := by
  rw [(eval_quiet ctx e r h).diagnostics_ne_nil_iff (eval_yields ctx e r h),
    Option.not_isSome_iff_eq_none]

end Expr

namespace Encoder

def read (enc : Encoder) (t : Token) (operands : List (List Token)) :
    Reported (Option ParsedInstruction) := do
  match ← enc.recognise t with
  | none => pure none
  | some m => parse m t operands

variable {enc : Encoder} {t : Token} {operands : List (List Token)} {p : ParsedInstruction}

theorem read_quiet {kind : Diagnostic → Bool} (enc : Encoder) (t : Token)
    (operands : List (List Token)) :
    (enc.read t operands).Quiet kind fun x => x.isSome :=
  .bindSome (enc.recognise_quiet t) nofun fun m => parse_quiet m t operands

theorem read_yields (enc : Encoder) (t : Token) (operands : List (List Token)) :
    (enc.read t operands).Yields fun x => x.isSome :=
  .andThenSome (enc.recognise_yields t) fun m => parse_yields m t operands

theorem read_eq_none_iff (enc : Encoder) (t : Token) (operands : List (List Token)) :
    (enc.read t operands).value = none ↔ errorCount (enc.read t operands).diagnostics ≠ 0 := by
  rw [(enc.read_quiet t operands).errorCount_ne_zero_iff (enc.read_yields t operands),
    Option.not_isSome_iff_eq_none]

theorem read_eq_some (h : (enc.read t operands).value = some p) :
    p.mnemonic.Known ∧ p.operands.length = p.mnemonic.args.length := by
  unfold read at h
  rw [Reported.value_bind] at h
  split at h
  · cases h
  · next m hm =>
    have hknown : p.mnemonic.Known := mnemonic_parse h ▸ known_recognise hm
    exact ⟨hknown, length_operands_parse h⟩

theorem encode_of_read (h : (enc.read t operands).value = some p) (ctx : EvalContext) :
    ∃ ws ok ds, enc.encode ctx p = .ok ⟨(ws, ok), ds⟩ ∧ (ok = false ↔ errorCount ds ≠ 0) ∧
      ws.length = p.mnemonic.count ∧ ∀ k w r, ws[k]? = some w → w.reference = some r →
        r.location = ctx.location.add (Int64.ofNat (4 * k)) := by
  obtain ⟨hknown, hoperands⟩ := read_eq_some h
  obtain ⟨⟨⟨ws, ok⟩, ds⟩, hr, hlen⟩ := enc.encode_completes ctx hknown hoperands
  have hyields : Reported.Yields ⟨(ws, ok), ds⟩ fun x => x.2 = true := fun he =>
    (enc.encode_spec ctx p _ hr he).1
  refine ⟨ws, ok, ds, hr, ?_, hlen, fun k w r hw hr' => ?_⟩
  · rw [(enc.encode_quiet ctx p _ hr).errorCount_ne_zero_iff hyields, Bool.not_eq_true]
  · exact ((wellEncoded_encode hknown _ hr).fitsAt_add hw r hr').1

end Encoder

/-- No line marks its module as failed. What was reported decides that at the end. -/
theorem assembleLines_failed_iff (s : Settings) (name : String) (text : List String) :
    ∃ m ds, assembleLines s name text = .ok ⟨m, ds⟩ ∧ (m.failed = true ↔ errorCount ds ≠ 0) := by
  have hinitial : (Environment.initial { name, order := s.order }).Open :=
    Module.open_new name s.order
  obtain ⟨out, hout, -⟩ := hinitial.completes_lines s.encoder name 1 text
  have hmoves : Environment.Moves _ out.value := Environment.moves_lines _ _ _ _ _ out hout
  have hintact := (hmoves.sound (Environment.sound_initial name s.order)).intact
  unfold assembleLines
  rw [hout]
  refine ⟨_, _, rfl, ?_⟩
  split
  · next hpos => exact iff_of_true rfl (Nat.ne_of_gt hpos)
  · next hzero =>
    refine iff_of_false ?_ (not_not.mpr (Nat.eq_zero_of_not_pos hzero))
    rw [Module.finalize, hintact]
    exact Bool.false_ne_true

/-- Nothing fails without a report and nothing succeeds after an error. An expression is read, and
has a value, unless something was reported; an instruction is read, and its words are right, unless
an error was reported, and in any case there are as many words as it takes, with each reference at
the place of its word; an unknown token stands for one offence inside it; and a module has failed if
an error was reported on its way, and only then. -/
theorem failed_iff_reported :
    (∀ ts place, (Expr.parse ts place).value = none ↔ (Expr.parse ts place).diagnostics ≠ []) ∧
      (∀ (e : Expr) ctx, ∃ r, e.eval ctx = .ok r ∧ (r.value = none ↔ r.diagnostics ≠ [])) ∧
      (∀ (enc : Encoder) t operands, (enc.read t operands).value = none ↔
        errorCount (enc.read t operands).diagnostics ≠ 0) ∧
      (∀ (enc : Encoder) t operands p ctx, (enc.read t operands).value = some p →
        ∃ ws ok ds, enc.encode ctx p = .ok ⟨(ws, ok), ds⟩ ∧ (ok = false ↔ errorCount ds ≠ 0) ∧
          ws.length = p.mnemonic.count ∧ ∀ k w r, ws[k]? = some w → w.reference = some r →
            r.location = ctx.location.add (Int64.ofNat (4 * k))) ∧
      (∀ file number text,
        ((∃ t ∈ (tokenizeLine file number text).value.tokens, t.kind = .unknown) ↔
          ∃ d ∈ (tokenizeLine file number text).diagnostics, d.isOffence) ∧
        Offends (tokenizeLine file number text).value.tokens
          (tokenizeLine file number text).diagnostics) ∧
      ∀ s name text, ∃ m ds, assembleLines s name text = .ok ⟨m, ds⟩ ∧
        (m.failed = true ↔ errorCount ds ≠ 0) := by
  refine ⟨Expr.parse_eq_none_iff, fun e ctx => ?_, Encoder.read_eq_none_iff,
    fun _ _ _ _ ctx h => Encoder.encode_of_read h ctx, fun file number text => ?_,
    assembleLines_failed_iff⟩
  · obtain ⟨r, hr⟩ := e.eval_total ctx
    exact ⟨r, hr, Expr.eval_eq_none_iff hr⟩
  · have hoffends := offends_tokenizeLine file number text
    exact ⟨hoffends.exists_iff, hoffends⟩

theorem failed_iff_reported_call :
    let enc := ({} : Settings).encoder
    let t : Token := ⟨"jal", .instruction, ⟨"a.s", 1, 0⟩⟩
    let callee : Token := ⟨"main", .identifier, ⟨"a.s", 1, 4⟩⟩
    let ctx : EvalContext := ⟨fun _ => none, .relative ".text" 8⟩
    ∃ p, (enc.read t [[callee]]).value = some p ∧
      ∃ ws ok ds, enc.encode ctx p = .ok ⟨(ws, ok), ds⟩ ∧ (ok = false ↔ errorCount ds ≠ 0) ∧
        ws.length = 1 ∧ ∀ k w r, ws[k]? = some w → w.reference = some r →
          r.location = (Address.relative ".text" 8).add (Int64.ofNat (4 * k)) := by
  intro enc t callee ctx
  let jal : Mnemonic := .machine ⟨"jal", .jump, 3, 0, [.target], .mips1, .latest⟩
  let operand : SourceOperand := ⟨.expression (.symbol "main" callee), callee.location, "main"⟩
  let p : ParsedInstruction := ⟨jal, [operand]⟩
  have hp : (enc.read t [[callee]]).value = some p := by decide
  exact ⟨p, hp, failed_iff_reported.2.2.2.1 enc t [[callee]] p ctx hp⟩

end MipsToolchain
