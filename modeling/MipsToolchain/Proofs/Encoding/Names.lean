import MipsToolchain.Proofs.Encoding.Placeholders
import MipsToolchain.Proofs.Expr.Names

namespace MipsToolchain

open Guarded

def SourceOperand.names (o : SourceOperand) : List String := (o.form.expr?.map Expr.names).getD []

/-- Whether a name is spelt by one of the tokens. -/
def NamedIn (ts : List Token) (n : String) : Prop := ∃ t ∈ ts, t.kind = .identifier ∧ t.text = n

namespace SourceOperand

theorem mem_of_splitMemory? {ts before : List Token} {r : Token}
    (h : splitMemory? ts = some (before, r)) : ∀ t ∈ before, t ∈ ts := by
  unfold splitMemory? at h
  split at h
  · next close r' opening rest hrev =>
    split at h
    · cases h
      intro t ht
      have hmem : t ∈ ts.reverse := by
        rw [hrev]
        simp [List.mem_reverse.mp ht]
      exact List.mem_reverse.mp hmem
    · cases h
  · cases h

theorem namedIn_parse {ts : List Token} {place : Source.Location} {e : Expr}
    (h : (Expr.parse ts place).value = some e) : ∀ n ∈ e.names, NamedIn ts n :=
  (Expr.reads_of_parse h).names

theorem namedIn_parseForm {ts : List Token} {place : Source.Location} {f : OperandForm}
    (h : (parseForm ts place).value = some f) :
    ∀ e, f.expr? = some e → ∀ n ∈ e.names, NamedIn ts n := by
  have hexpression : ((Expr.parse ts place).value.map OperandForm.expression = some f) →
      ∀ e, f.expr? = some e → ∀ n ∈ e.names, NamedIn ts n := by
    intro hf e he
    obtain ⟨e', he', rfl⟩ := Option.map_eq_some_iff.mp hf
    cases he
    exact namedIn_parse he'
  unfold parseForm at h
  split at h
  · split at h
    · obtain ⟨r, -, rfl⟩ := Option.map_eq_some_iff.mp h
      intro e he
      cases he
    · exact hexpression h
  · split at h
    · obtain ⟨r, -, rfl⟩ := Option.map_eq_some_iff.mp h
      intro e he
      cases he
    · next before r _ hsplit =>
      obtain ⟨b, -, h⟩ := Option.bind_eq_some_iff.mp h
      obtain ⟨e', he', rfl⟩ := Option.map_eq_some_iff.mp h
      intro e he n hn
      cases he
      obtain ⟨t, ht, hname⟩ := namedIn_parse he' n hn
      exact ⟨t, mem_of_splitMemory? hsplit t ht, hname⟩
    · exact hexpression h

theorem namedIn_parse_operand {ts : List Token} {place : Source.Location} {o : SourceOperand}
    (h : (parse ts place).value = some o) : ∀ n ∈ o.names, NamedIn ts n := by
  unfold parse at h
  split at h
  · cases h
  · obtain ⟨f, hf, rfl⟩ := Option.map_eq_some_iff.mp h
    intro n hn
    unfold names at hn
    dsimp only at hn
    cases he : f.expr? with
    | none =>
      rw [he] at hn
      cases hn
    | some e =>
      rw [he] at hn
      exact namedIn_parseForm hf e he n hn

end SourceOperand

namespace Encoder

theorem parseOperand_eq_some {t : Token} {number : Nat} {a : Isa.Argument} {arg : List Token}
    {o : SourceOperand} (h : (parseOperand t number a arg).value = some o) :
    (SourceOperand.parse arg t.location).value = some o ∧ o.form.suits a := by
  unfold parseOperand at h
  simp only [Reported.value_bind] at h
  split at h
  · cases h
  · split at h
    · next hsome hsuits =>
      cases h
      exact ⟨hsome, hsuits⟩
    · cases h

theorem parse_of_mem_parseOperands {t : Token} {number : Nat} {as : List Isa.Argument}
    {args : List (List Token)} {os : List SourceOperand} {hl : args.length = as.length}
    (h : (parseOperands t number as args hl).value = some os) :
    ∀ o ∈ os, ∃ arg ∈ args, (SourceOperand.parse arg t.location).value = some o := by
  induction as generalizing args number os with
  | nil =>
    obtain rfl := List.length_eq_zero_iff.mp hl
    cases h
    simp
  | cons a as ih =>
    match args, hl with
    | arg :: args, hl =>
      obtain ⟨o', ho', h⟩ := Option.bind_eq_some_iff.mp h
      obtain ⟨os', hos', rfl⟩ := Option.map_eq_some_iff.mp h
      intro o ho
      rcases List.mem_cons.mp ho with rfl | ho
      · exact ⟨arg, List.mem_cons_self .., (parseOperand_eq_some ho').1⟩
      · obtain ⟨arg', harg, hparse⟩ := ih hos' o ho
        exact ⟨arg', List.mem_cons_of_mem _ harg, hparse⟩

theorem parse_of_mem_parse {m : Mnemonic} {t : Token} {args : List (List Token)}
    {p : ParsedInstruction} (h : (parse m t args).value = some p) :
    ∀ o ∈ p.operands, ∃ arg ∈ args, (SourceOperand.parse arg t.location).value = some o := by
  unfold parse at h
  split at h
  · obtain ⟨os, hos, rfl⟩ := Option.map_eq_some_iff.mp h
    exact parse_of_mem_parseOperands hos
  · cases h

theorem namedIn_parse {m : Mnemonic} {t : Token} {args : List (List Token)}
    {p : ParsedInstruction} (h : (parse m t args).value = some p) :
    ∀ o ∈ p.operands, ∀ n ∈ o.names, ∃ arg ∈ args, NamedIn arg n := by
  intro o ho n hn
  obtain ⟨arg, harg, hparse⟩ := parse_of_mem_parse h o ho
  exact ⟨arg, harg, SourceOperand.namedIn_parse_operand hparse n hn⟩

def Evaluates (ctx : EvalContext) (os : List SourceOperand) (v : ExprValue) : Prop :=
  ∃ o ∈ os, ∃ e, o.form.expr? = some e ∧ (e.eval ctx).Gives (some v)

theorem HasValue.evaluates {ctx : EvalContext} {os : List SourceOperand} {o : SourceOperand}
    {v : OperandValue} (h : HasValue ctx o v) (ho : o ∈ os) (hrel : v.value.isRelocatable) :
    Evaluates ctx os v.value := by
  cases he : o.form.expr? with
  | none =>
    rw [h.register he] at hrel
    cases hrel
  | some e => exact ⟨o, ho, e, he, h.expression e he⟩

theorem forall_expand {P : ExprValue → Prop} (hconstant : ∀ k, P (.constant k)) {enc : Encoder}
    {m : Mnemonic} {values : List OperandValue} {ss : List MachineStep}
    (hvalues : ∀ v ∈ values, P v.value) (h : enc.expand m values = .ok ss) :
    ∀ s ∈ ss, ∀ v ∈ s.operands, P v.value := by
  -- Operands of the expansion are constants, operands of the instruction or halves of these.
  have hpick : ∀ {k : Nat} {v : OperandValue}, elementAt values k = .ok v → P v.value :=
    fun hv => hvalues _ (List.mem_of_getElem? (elementAt_eq_ok.mp hv))
  cases m with
  | machine i =>
    cases h
    intro s hs
    rw [List.mem_singleton.mp hs]
    exact hvalues
  | pseudo p =>
    refine forall_of_forall₂ (forall₂_expand h) fun step _ s hs => ?_
    refine forall_of_forall₂ (expandStep_eq_ok hs).2 fun o _ v hv => ?_
    cases o with
    | register | constant =>
      cases hv
      exact hconstant _
    | whole k => exact hpick hv
    | high k | low k =>
      obtain ⟨u, hu, rfl⟩ := except_map_eq_ok.mp hv
      have hu' : P u.value := hpick hu
      exact hu'

theorem reference_encodeSteps (loc : Address) (ss : List MachineStep) :
    (encodeSteps loc ss).Ensures fun x => ∀ w ∈ x.1, ∀ r, w.reference = some r →
      ∃ s ∈ ss, ∃ v ∈ s.operands, v.value.isRelocatable ∧ r.symbol = v.value.target ∧
        r.addend = v.value.number := by
  induction ss generalizing loc with
  | nil => exact .pure (by simp)
  | cons s ss ih =>
    rw [encodeSteps]
    refine .bind fun a ha => .andThen (ih (loc.add 4)) fun rest hws => .pure ?_
    intro w hw r hr
    rcases List.mem_cons.mp hw with rfl | hw
    · obtain ⟨b, v, op, -, hv, hop⟩ := exists_operand_of_reference ha hr
      have hrel := OperandValue.isRelocatable_of_reference hop
      obtain ⟨-, rfl, -⟩ := OperandValue.reference_encode hop
      exact ⟨s, List.mem_cons_self .., v, (List.of_mem_zip hv).2, hrel, rfl, rfl⟩
    · obtain ⟨s', hs', hv⟩ := hws w hw r hr
      exact ⟨s', List.mem_cons_of_mem _ hs', hv⟩

theorem evaluates_encode {enc : Encoder} {ctx : EvalContext} {p : ParsedInstruction} :
    (enc.encode ctx p).Ensures fun x => ∀ w ∈ x.1, ∀ r, w.reference = some r →
      ∃ v : ExprValue, Evaluates ctx p.operands v ∧ v.isRelocatable ∧ r.symbol = v.target ∧
        r.addend = v.number := by
  intro a ha w hw r hr
  obtain ⟨vs, hvs, -, ⟨-, hval⟩ | ⟨values, ss, ws, hsome, hss, hws, hval, -⟩⟩ := encode_eq_ok ha
  · rw [hval] at hw
    obtain rfl := List.eq_of_mem_replicate hw
    cases hr
  · rw [← hval] at hw
    obtain ⟨s, hs, v, hv, hrel, hreference⟩ := reference_encodeSteps _ _ ws hws w hw r hr
    have hvalues := hasValue_evaluateAll ctx p.operands vs hvs values hsome
    refine ⟨v.value, ?_, hrel, hreference⟩
    exact forall_expand (P := fun v => v.isRelocatable → Evaluates ctx p.operands v)
      (fun k hk => by cases hk) (forall_of_forall₂ hvalues fun o ho _ h => h.evaluates ho) hss s hs
      v hv hrel

/-- What the references of an instruction are about is named in its operands, or else a section where
something is known to be. -/
theorem comesFrom_encode {enc : Encoder} {ctx : EvalContext} {p : ParsedInstruction} :
    (enc.encode ctx p).Ensures fun x => ∀ w ∈ x.1, ∀ r, w.reference = some r →
      ∃ v : ExprValue, v.ComesFrom ctx (p.operands.flatMap SourceOperand.names) ∧
        r.symbol = v.target := by
  intro a ha w hw r hr
  obtain ⟨v, ⟨o, ho, e, he, ds, hv⟩, -, hsymbol, -⟩ := evaluates_encode a ha w hw r hr
  refine ⟨v, (Expr.comesFrom_eval ctx e _ hv v rfl).mono fun n hn => ?_, hsymbol⟩
  have hnames : o.names = e.names := by rw [SourceOperand.names, he]; rfl
  exact List.mem_flatMap.mpr ⟨o, ho, hnames ▸ hn⟩

end Encoder

end MipsToolchain
