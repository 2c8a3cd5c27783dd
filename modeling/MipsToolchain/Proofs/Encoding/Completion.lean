import MipsToolchain.Proofs.Completion
import MipsToolchain.Proofs.Encoding.Endings
import MipsToolchain.Proofs.Expr.Evaluation

namespace MipsToolchain

open Diagnostic Guarded

def ExpansionOperand.index? : ExpansionOperand → Option Nat
  | register _ | constant _ => none
  | whole k | high k | low k => some k

theorem Pseudo.expansion_pattern : ∀ q ∈ Pseudo.all, ∀ step ∈ q.expansion,
    ((Isa.Instruction.ofName? step.1).any fun i =>
      i.since == .mips1 && i.till == .latest && i.args.length == step.2.length) ∧
      ∀ o ∈ step.2, o.index?.all (· < q.args.length) := by
  decide

/-- As many words are kept for a pseudo-instruction as it has machine instructions. -/
theorem Pseudo.length_expansion : ∀ q ∈ Pseudo.all, q.expansion.length = q.count := by
  decide

theorem Mnemonic.Known.size_le {m : Mnemonic} (h : m.Known) : m.size ≤ 12 := by
  cases m with
  | machine i =>
    change 4 ≤ 12
    decide
  | pseudo q =>
    have hmost : ∀ q ∈ Pseudo.all, 4 * q.count ≤ 12 := by decide
    exact hmost q h

def MachineStep.Complete (s : MachineStep) : Prop :=
  s.operands.length = s.instruction.args.length

namespace Encoder

theorem evaluate_completes (ctx : EvalContext) (o : SourceOperand) :
    (evaluate ctx o).Completes fun _ => True := by
  unfold evaluate
  dsimp only
  split
  · exact .pure trivial
  · next e _ =>
    obtain ⟨r, hr⟩ := e.eval_total ctx
    exact .andThen (p := fun _ => True) ⟨r, hr, trivial⟩ fun _ _ => .pure trivial

theorem evaluateAll_completes (ctx : EvalContext) (os : List SourceOperand) :
    (evaluateAll ctx os).Completes fun x => ∀ vs, x = some vs → vs.length = os.length := by
  induction os with
  | nil => exact .pure fun vs hvs => by cases hvs; rfl
  | cons o os ih =>
    refine .andThen (evaluate_completes ctx o) fun x _ => .andThen ih fun xs hxs => .pure ?_
    intro vs hvs
    obtain ⟨v, -, hvs⟩ := Option.bind_eq_some_iff.mp hvs
    obtain ⟨us, hus, rfl⟩ := Option.map_eq_some_iff.mp hvs
    exact congrArg (· + 1) (hxs us hus)

theorem checkConstants_completes {as : List Isa.Argument} {vs : List OperandValue}
    (h : as.length ≤ vs.length) : (checkConstants as vs).Completes fun _ => True := by
  induction as generalizing vs with
  | nil => exact .pure trivial
  | cons a as ih =>
    match vs, h with
    | v :: vs, h =>
      have hrest := ih (Nat.le_of_succ_le_succ h)
      rw [checkConstants]
      dsimp only
      split
      · exact .reported hrest
      · exact hrest

theorem encodeFields_completes (loc : Address) {as : List Isa.Argument} {vs : List OperandValue}
    (h : as.length ≤ vs.length) :
    (encodeFields loc as vs).Completes fun fs => fs.length = as.length := by
  induction as generalizing vs with
  | nil => exact .pure rfl
  | cons a as ih =>
    match vs, h with
    | v :: vs, h =>
      refine .reported (.andThen (ih (Nat.le_of_succ_le_succ h)) fun fs hfs => .pure ?_)
      exact congrArg (· + 1) hfs

theorem encodeStep_completes (loc : Address) {s : MachineStep} (h : s.Complete) :
    (encodeStep loc s).Completes fun _ => True := by
  refine .andThen (encodeFields_completes loc (Nat.le_of_eq h.symm)) fun fs hfs => ?_
  refine .andThen (p := fun _ => True) (.ofExcept ⟨_, if_neg ?_, trivial⟩) fun w _ => .pure trivial
  rw [List.length_map, hfs]
  exact not_not.mpr rfl

theorem encodeSteps_completes (loc : Address) {ss : List MachineStep}
    (h : ∀ s ∈ ss, s.Complete) : (encodeSteps loc ss).Completes fun x => x.1.length = ss.length := by
  induction ss generalizing loc with
  | nil => exact .pure rfl
  | cons s ss ih =>
    obtain ⟨hs, hss⟩ := List.forall_mem_cons.mp h
    refine .andThen (encodeStep_completes loc hs) fun x _ => ?_
    exact .andThen (ih (loc.add 4) hss) fun y hy => .pure (congrArg (· + 1) hy)

theorem expandOperand_isOk {values : List OperandValue} {o : ExpansionOperand}
    (h : o.index?.all (· < values.length)) : ∃ v, expandOperand values o = .ok v := by
  cases o with
  | register r => exact ⟨_, rfl⟩
  | constant v => exact ⟨_, rfl⟩
  | whole k => exact ⟨_, elementAt_of_lt (by simpa [ExpansionOperand.index?] using h)⟩
  | high k | low k =>
    have hk : k < values.length := by simpa [ExpansionOperand.index?] using h
    exact ⟨_, except_map_eq_ok.mpr ⟨_, elementAt_of_lt hk, rfl⟩⟩

theorem expandStep_isOk (t : Isa.Table) {q : Pseudo} (hq : q ∈ Pseudo.all)
    {step : String × List ExpansionOperand} (hstep : step ∈ q.expansion)
    {values : List OperandValue} (hv : values.length = q.args.length) :
    ∃ s, expandStep t values step = .ok s ∧ s.Complete := by
  obtain ⟨hi, hindex⟩ := Pseudo.expansion_pattern q hq step hstep
  obtain ⟨i, hname, hi⟩ := (Option.any_eq_true _ _).mp hi
  simp only [Bool.and_eq_true, beq_iff_eq] at hi
  obtain ⟨⟨hsince, htill⟩, hlen⟩ := hi
  obtain ⟨j, -, hargs, hfound⟩ := Isa.exists_lasting step.1 i.args (by simp [hname, hsince, htill])
  obtain ⟨ops, hops, hcount⟩ := except_mapM_isOk (f := expandOperand values) fun o ho =>
    expandOperand_isOk (hv ▸ hindex o ho)
  refine ⟨⟨j, ops⟩, ?_, hcount.trans (hlen.symm.trans (congrArg List.length hargs.symm))⟩
  simp only [expandStep, hfound t, hops]
  rfl

theorem expand_isOk (enc : Encoder) {m : Mnemonic} (hm : m.Known) {values : List OperandValue}
    (hv : values.length = m.args.length) :
    ∃ ss, enc.expand m values = .ok ss ∧ ss.length = m.count ∧ ∀ s ∈ ss, s.Complete := by
  cases m with
  | machine i => exact ⟨_, rfl, rfl, fun s hs => by rw [List.mem_singleton.mp hs]; exact hv⟩
  | pseudo q =>
    have hsteps : ∀ step ∈ q.expansion, ∃ s, expandStep enc.table values step = .ok s ∧ s.Complete :=
      fun step hstep => expandStep_isOk enc.table hm hstep hv
    obtain ⟨ss, hss, hlen⟩ :=
      except_mapM_isOk fun step hstep => (hsteps step hstep).imp fun _ => And.left
    have hcount := hlen.trans (Pseudo.length_expansion q hm)
    refine ⟨ss, expand_pseudo_eq_ok.mpr ⟨hss, hcount⟩, hcount, ?_⟩
    refine forall_of_forall₂ (mapM_eq_ok hss) fun step hstep s hs => ?_
    obtain ⟨s', hs', hcomplete⟩ := hsteps step hstep
    cases hs.symm.trans hs'
    exact hcomplete

/-- Every instruction that is parsed can be encoded, in each version and whatever its operands
are, and takes the words that were reserved for it. -/
theorem encode_completes (enc : Encoder) (ctx : EvalContext) {p : ParsedInstruction}
    (hm : p.mnemonic.Known) (hp : p.operands.length = p.mnemonic.args.length) :
    (enc.encode ctx p).Completes fun x => x.1.length = p.mnemonic.count := by
  unfold encode
  refine .andThen (evaluateAll_completes ctx p.operands) fun vs hvs => ?_
  split
  · exact .pure List.length_replicate
  · next values =>
    have hlen : values.length = p.mnemonic.args.length := (hvs values rfl).trans hp
    obtain ⟨ss, hss, hcount, hcomplete⟩ := enc.expand_isOk hm hlen
    have hsteps : (liftM (enc.expand p.mnemonic values) >>= encodeSteps ctx.location :
        Guarded _).Completes fun x => x.1.length = p.mnemonic.count :=
      .andThen (p := fun ss => ss.length = p.mnemonic.count ∧ ∀ s ∈ ss, s.Complete)
        (.ofExcept ⟨ss, hss, hcount, hcomplete⟩) fun _ h =>
          (encodeSteps_completes ctx.location h.2).mono fun _ hx => hx.trans h.1
    dsimp only
    split
    · next q hq =>
      rw [hq] at hlen
      exact .andThen (checkConstants_completes (Nat.le_of_eq hlen.symm)) fun _ _ => hsteps
    · exact hsteps

theorem length_operands_parse {m : Mnemonic} {t : Token} {args : List (List Token)}
    {p : ParsedInstruction} (h : (parse m t args).value = some p) :
    p.operands.length = p.mnemonic.args.length := by
  rw [mnemonic_parse h]
  exact (suits_parse h).length_eq.symm

end Encoder

end MipsToolchain
