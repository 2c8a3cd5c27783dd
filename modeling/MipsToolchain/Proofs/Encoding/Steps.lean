import MipsToolchain.Proofs.Encoding.Success
import Mathlib.Data.List.Forall2

namespace MipsToolchain

open Diagnostic Guarded

namespace OperandForm

theorem eq_register_of_suits {f : OperandForm} {a : Isa.Argument} (h : f.suits a)
    (ha : a.isRegister) : ∃ r, f = .register r := by
  cases f with
  | register r => exact ⟨r, rfl⟩
  | expression => simp [suits, ha] at h
  | memory =>
    rw [suits, beq_iff_eq] at h
    subst h
    cases ha

theorem eq_memory_of_suits {f : OperandForm} (h : f.suits .memory) :
    ∃ base offset, f = .memory base offset := by
  cases f with
  | register => cases h
  | expression => cases h
  | memory base offset => exact ⟨base, offset, rfl⟩

end OperandForm

namespace OperandValue

theorem yields_refuse (v : OperandValue) {p : Problem} (hp : p.severity = .error)
    (args : List MessageArg) (post : FieldValue → Prop) : (v.refuse p args).Yields post := by
  unfold refuse report
  split <;> exact .ofReport hp

structure Filled (loc : Address) (f : FieldValue) : Prop where
  isSome : f.isSome
  location : ∀ op r, f = some (op, some r) → r.location = loc

theorem filled_settled (loc : Address) (field : Int64) : Filled loc (settled field) :=
  ⟨rfl, fun _ _ h => by cases h⟩

theorem filled_deferred (v : OperandValue) (kind : RelocationKind) (loc : Address)
    (field : Int64) : Filled loc (v.deferred kind loc field) :=
  ⟨rfl, fun _ _ h => by cases h; rfl⟩

variable (v : OperandValue) (loc : Address)

theorem filled_encodeShift : v.encodeShift.Yields (Filled loc) := by
  unfold encodeShift
  split
  · exact v.yields_refuse rfl _ _
  · dsimp only
    split
    · exact .pure (filled_settled loc _)
    · exact .skip fun _ => .pure (filled_settled loc _)

theorem filled_encodeImmediate (unsigned : Bool) :
    (v.encodeImmediate unsigned loc).Yields (Filled loc) := by
  unfold encodeImmediate
  dsimp only
  split
  · split
    · exact .pure (v.filled_deferred _ loc _)
    · exact .pure (v.filled_deferred _ loc _)
  · split
    · exact .pure (filled_settled loc _)
    · exact .pure (filled_settled loc _)
    · exact .skip fun _ => .pure (filled_settled loc _)

theorem filled_encodeDisplacement (words : Int64) :
    (v.encodeDisplacement words).Yields (Filled loc) := by
  unfold encodeDisplacement
  split
  · exact .pure (filled_settled loc _)
  · exact v.yields_refuse rfl _ _

theorem filled_encodeBranch : (v.encodeBranch loc).Yields (Filled loc) := by
  unfold encodeBranch
  dsimp only
  split
  · exact v.filled_encodeDisplacement loc _
  · split
    · split
      · exact v.yields_refuse rfl _ _
      · exact v.filled_encodeDisplacement loc _
    · split
      · exact v.yields_refuse rfl _ _
      · exact .pure (v.filled_deferred _ loc _)

theorem filled_encodeTarget : (v.encodeTarget loc).Yields (Filled loc) := by
  unfold encodeTarget
  dsimp only
  split
  · exact v.yields_refuse rfl _ _
  · split
    · exact .pure (v.filled_deferred _ loc _)
    · split
      · exact .pure (filled_settled loc _)
      · exact .skip fun _ => .pure (filled_settled loc _)

theorem filled_encode (a : Isa.Argument) : (v.encode a loc).Yields (Filled loc) := by
  have hreg : Filled loc (some (.ofRegister v.register, none)) := ⟨rfl, fun _ _ h => by cases h⟩
  cases a with
  | rs | rt | rd => exact .pure hreg
  | shamt => exact v.filled_encodeShift loc
  | immediate => exact v.filled_encodeImmediate loc false
  | unsigned => exact v.filled_encodeImmediate loc true
  | memory =>
    refine .andThen (v.filled_encodeImmediate loc false) fun f hf => .pure ⟨?_, fun op r h => ?_⟩
    · rw [Option.isSome_map]
      exact hf.isSome
    · obtain ⟨⟨op', r'⟩, hf', heq⟩ := Option.map_eq_some_iff.mp h
      cases heq
      exact hf.location op' r hf'
  | branch => exact v.filled_encodeBranch loc
  | target => exact v.filled_encodeTarget loc

end OperandValue

namespace Encoder

def placed (loc : Address) : List MachineStep → List (Address × MachineStep)
  | [] => []
  | s :: ss => (loc, s) :: placed (loc.add 4) ss

@[simp]
theorem length_placed (loc : Address) (ss : List MachineStep) :
    (placed loc ss).length = ss.length := by
  induction ss generalizing loc with
  | nil => rfl
  | cons s ss ih => simp [placed, ih]

theorem filled_encodeFields (loc : Address) (as : List Isa.Argument) (vs : List OperandValue) :
    (encodeFields loc as vs).Yields fun fields => ∀ f ∈ fields, OperandValue.Filled loc f := by
  induction as generalizing vs with
  | nil => exact .pure (by simp)
  | cons a as ih =>
    cases vs with
    | nil => exact .fault
    | cons v vs =>
      rw [encodeFields]
      refine .andThen (.ofReported (v.filled_encode loc a)) fun f hf => ?_
      refine .andThen (ih vs) fun fields hfs => .pure fun g hg => ?_
      rcases List.mem_cons.mp hg with rfl | hg
      · exact hf
      · exact hfs g hg

/-- The word that a machine instruction is encoded as without an error. -/
def EncodedAs (p : Address × MachineStep) (w : EncodedWord) : Prop :=
  ∃ ds, encodeStep p.1 p.2 = .ok ⟨(w, true), ds⟩ ∧ errorCount ds = 0

theorem encodeFields_eq_ok {loc : Address} {as : List Isa.Argument} {vs : List OperandValue}
    {fs : Reported (List FieldValue)} (h : encodeFields loc as vs = .ok fs) :
    as.length ≤ vs.length ∧ fs.value = List.zipWith (fun a v => (v.encode a loc).value) as vs ∧
      ∀ x ∈ as.zip vs,
        errorCount (x.2.encode x.1 loc).diagnostics ≤ errorCount fs.diagnostics := by
  induction as generalizing vs fs with
  | nil =>
    cases pure_eq_ok.mp h
    simp
  | cons a as ih =>
    cases vs with
    | nil => cases h
    | cons v vs =>
      obtain ⟨f, b, hf, hb, rfl⟩ := bind_eq_ok.mp h
      cases liftReported_eq_ok.mp hf
      obtain ⟨gs, c, hgs, hc, rfl⟩ := bind_eq_ok.mp hb
      cases pure_eq_ok.mp hc
      obtain ⟨hlen, hval, herr⟩ := ih hgs
      refine ⟨by simpa using hlen, ?_, fun x hx => ?_⟩
      · rw [List.zipWith_cons_cons, ← hval]
      · rw [List.zip_cons_cons, List.mem_cons] at hx
        simp only [errorCount_append]
        rcases hx with rfl | hx
        · exact Nat.le_add_right _ _
        · have hle := herr x hx
          omega

theorem encodeStep_eq_ok {loc : Address} {s : MachineStep} {r : Reported (EncodedWord × Bool)}
    (h : encodeStep loc s = .ok r) :
    ∃ fs, encodeFields loc s.instruction.args s.operands = .ok fs ∧
      fs.diagnostics = r.diagnostics ∧ s.instruction.encode
        (fs.value.map fun f => (f.map (·.1)).getD (.ofValue 0)) = .ok r.value.1.value ∧
      r.value.1.reference = lastReference fs.value ∧ r.value.2 = fs.value.all Option.isSome := by
  obtain ⟨fs, b, hfs, hb, rfl⟩ := bind_eq_ok.mp h
  obtain ⟨c, d, hc, hd, rfl⟩ := bind_eq_ok.mp hb
  obtain ⟨w, hw, rfl⟩ := liftExcept_eq_ok.mp hc
  cases pure_eq_ok.mp hd
  exact ⟨fs, hfs, by simp, hw, rfl, rfl⟩

theorem encodedAs_encodeStep (loc : Address) (s : MachineStep) :
    (encodeStep loc s).Yields fun x => x.2 = true ∧ EncodedAs (loc, s) x.1 := by
  intro r hr he
  obtain ⟨fs, hfs, hds, -, -, hok⟩ := encodeStep_eq_ok hr
  rw [← hds] at he
  have hall : r.value.2 = true := by
    rw [hok]
    exact List.all_eq_true.mpr fun f hf => (filled_encodeFields loc _ _ fs hfs he f hf).isSome
  refine ⟨hall, r.diagnostics, ?_, hds ▸ he⟩
  rw [hr, ← hall]

theorem EncodedAs.location {p : Address × MachineStep} {w : EncodedWord} (h : EncodedAs p w)
    {r : Reference} (hr : w.reference = some r) : r.location = p.1 := by
  obtain ⟨ds, hds, he⟩ := h
  obtain ⟨fs, hfs, rfl, -, hlast, -⟩ := encodeStep_eq_ok hds
  rw [hr] at hlast
  obtain ⟨f, hf, hbind⟩ := List.mem_filterMap.mp (List.mem_of_getLast? hlast.symm)
  obtain ⟨⟨op, r'⟩, hsome, rfl⟩ := Option.bind_eq_some_iff.mp hbind
  exact (filled_encodeFields p.1 _ _ fs hfs he f hf).location op r hsome

theorem encodedAs_encodeSteps (loc : Address) (ss : List MachineStep) :
    (encodeSteps loc ss).Yields fun x =>
      x.2 = true ∧ List.Forall₂ EncodedAs (placed loc ss) x.1 := by
  induction ss generalizing loc with
  | nil => exact .pure ⟨rfl, .nil⟩
  | cons s ss ih =>
    rw [encodeSteps]
    refine .andThen (encodedAs_encodeStep loc s) fun ⟨w, ok⟩ hw => ?_
    refine .andThen (ih (loc.add 4)) fun ⟨ws, oks⟩ hws => .pure ⟨?_, .cons hw.2 hws.2⟩
    have hok : ok = true := hw.1
    have hoks : oks = true := hws.1
    rw [hok, hoks]
    rfl

/-- How an operand and its value belong together. -/
structure HasValue (ctx : EvalContext) (o : SourceOperand) (v : OperandValue) : Prop where
  whole : v.part = .whole
  register : o.form.expr? = none → v.value = .constant 0
  expression : ∀ e, o.form.expr? = some e → (e.eval ctx).Gives (some v.value)

theorem hasValue_evaluate (ctx : EvalContext) (o : SourceOperand) :
    (evaluate ctx o).Ensures fun x => ∀ v, x = some v → HasValue ctx o v := by
  unfold evaluate
  dsimp only
  split
  · next hnone =>
    refine .pure fun v hv => ?_
    cases hv
    exact ⟨rfl, fun _ => rfl, fun e he => by cases hnone.symm.trans he⟩
  · next e he =>
    refine .bind fun r hr => .pure fun v hv => ?_
    obtain ⟨y, hy, rfl⟩ := Option.map_eq_some_iff.mp hv
    refine ⟨rfl, fun hnone => (by cases hnone.symm.trans he), fun e' he' => ?_⟩
    cases he.symm.trans he'
    exact hy ▸ .ofOk hr

theorem hasValue_evaluateAll (ctx : EvalContext) (os : List SourceOperand) :
    (evaluateAll ctx os).Ensures fun x => ∀ vs, x = some vs →
      List.Forall₂ (HasValue ctx) os vs := by
  induction os with
  | nil =>
    refine .pure fun vs hvs => ?_
    cases hvs
    exact .nil
  | cons o os ih =>
    refine .andThen (hasValue_evaluate ctx o) fun x hx =>
      .andThen ih fun xs hxs => .pure fun vs hvs => ?_
    obtain ⟨v, hv, hvs⟩ := Option.bind_eq_some_iff.mp hvs
    obtain ⟨us, hus, rfl⟩ := Option.map_eq_some_iff.mp hvs
    exact .cons (hx v hv) (hxs us hus)

theorem encode_eq_ok {enc : Encoder} {ctx : EvalContext} {p : ParsedInstruction}
    {r : Reported (List EncodedWord × Bool)} (h : enc.encode ctx p = .ok r) :
    ∃ vs, evaluateAll ctx p.operands = .ok vs ∧
      errorCount vs.diagnostics ≤ errorCount r.diagnostics ∧
      (vs.value = none ∧ r.value = (List.replicate p.mnemonic.count .zero, false) ∨
        ∃ values ss ws, vs.value = some values ∧ enc.expand p.mnemonic values = .ok ss ∧
          encodeSteps ctx.location ss = .ok ws ∧ ws.value = r.value ∧
          errorCount ws.diagnostics ≤ errorCount r.diagnostics) := by
  obtain ⟨vs, b, hvs, hb, rfl⟩ := bind_eq_ok.mp h
  refine ⟨vs, hvs, by simp, ?_⟩
  split at hb
  · next hnone =>
    cases pure_eq_ok.mp hb
    exact .inl ⟨hnone, rfl⟩
  · next values hsome =>
    -- The constants of a pseudo-instruction are checked first, which reports but has no result.
    have hsteps : ∀ b', (do
        let steps ← enc.expand p.mnemonic values
        encodeSteps ctx.location steps : Guarded _) = .ok b' → ∃ ss ws,
          enc.expand p.mnemonic values = .ok ss ∧ encodeSteps ctx.location ss = .ok ws ∧
          ws.value = b'.value ∧ errorCount ws.diagnostics ≤ errorCount b'.diagnostics := by
      intro b' hb'
      obtain ⟨c, ws, hc, hws, rfl⟩ := bind_eq_ok.mp hb'
      obtain ⟨ss, hss, rfl⟩ := liftExcept_eq_ok.mp hc
      exact ⟨ss, ws, hss, hws, rfl, by simp⟩
    refine .inr ⟨values, ?_⟩
    dsimp only at hb
    split at hb
    · obtain ⟨c, d, -, hd, rfl⟩ := bind_eq_ok.mp hb
      obtain ⟨ss, ws, hss, hws, hval, hle⟩ := hsteps d hd
      refine ⟨ss, ws, hsome, hss, hws, hval, ?_⟩
      simp only [errorCount_append]
      omega
    · obtain ⟨ss, ws, hss, hws, hval, hle⟩ := hsteps b hb
      refine ⟨ss, ws, hsome, hss, hws, hval, ?_⟩
      simp only [errorCount_append]
      omega

theorem encode_spec (enc : Encoder) (ctx : EvalContext) (p : ParsedInstruction) :
    (enc.encode ctx p).Yields fun x => x.2 = true ∧ ∃ values ss,
      (evaluateAll ctx p.operands).Gives (some values) ∧ enc.expand p.mnemonic values = .ok ss ∧
      List.Forall₂ EncodedAs (placed ctx.location ss) x.1 := by
  intro r hr he
  obtain ⟨vs, hvs, hle, ⟨hnone, -⟩ | ⟨values, ss, ws, hsome, hss, hws, hval, hle'⟩⟩ :=
    encode_eq_ok hr
  · have hvalues := evaluateAll_yields ctx p.operands vs hvs (by omega)
    rw [hnone] at hvalues
    cases hvalues
  · obtain ⟨hok, hws⟩ := encodedAs_encodeSteps ctx.location ss ws hws (by omega)
    rw [← hval]
    exact ⟨hok, values, ss, hsome ▸ .ofOk hvs, hss, hws⟩

theorem mem_instructions_of_lookup {t : Isa.Table} {name : String} {i : Isa.Instruction}
    (h : t.lookup name = .found i) : i ∈ t.instructions := by
  unfold Isa.Table.lookup at h
  split at h
  · cases h
  · next j hj =>
    split at h
    · next hav =>
      cases h
      exact List.mem_filter.mpr ⟨List.mem_of_find?_eq_some hj, hav⟩
    · cases h

theorem lookup_of_recognise {enc : Encoder} {t : Token} {i : Isa.Instruction}
    (h : (enc.recognise t).value = some (.machine i)) :
    enc.table.lookup (Text.lower t.text) = .found i := by
  unfold recognise at h
  dsimp only at h
  split at h
  · next hfound =>
    cases h
    exact hfound
  · split at h <;> cases h
  · cases h
  · cases h

theorem ofName?_of_recognise {enc : Encoder} {t : Token} {q : Pseudo}
    (h : (enc.recognise t).value = some (.pseudo q)) :
    Pseudo.ofName? (Text.lower t.text) = some q := by
  unfold recognise at h
  dsimp only at h
  split at h
  · cases h
  · next hq _ =>
    split at h
    · cases h
      exact hq
    · cases h
  · cases h
  · cases h

theorem mem_instructions_of_recognise {enc : Encoder} {t : Token} {i : Isa.Instruction}
    (h : (enc.recognise t).value = some (.machine i)) : i ∈ enc.table.instructions :=
  mem_instructions_of_lookup (lookup_of_recognise h)

theorem mem_instructions_of_expandStep {t : Isa.Table} {values : List OperandValue}
    {step : String × List ExpansionOperand} {s : MachineStep}
    (h : expandStep t values step = .ok s) : s.instruction ∈ t.instructions := by
  unfold expandStep at h
  split at h
  · next hfound =>
    obtain ⟨ops, -, hs⟩ := except_bind_eq_ok.mp h
    cases hs
    exact mem_instructions_of_lookup hfound
  · cases h

theorem mapM_eq_ok {ε α β : Type} {f : α → Except ε β} {as : List α} {bs : List β}
    (h : as.mapM f = .ok bs) : List.Forall₂ (fun a b => f a = .ok b) as bs := by
  induction as generalizing bs with
  | nil =>
    cases h
    exact .nil
  | cons a as ih =>
    rw [List.mapM_cons] at h
    obtain ⟨b, hb, h⟩ := except_bind_eq_ok.mp h
    obtain ⟨bs', hbs, h⟩ := except_bind_eq_ok.mp h
    cases h
    exact .cons hb (ih hbs)

theorem forall_of_forall₂ {α β : Type} {R : α → β → Prop} {p : β → Prop} {as : List α}
    {bs : List β} (h : List.Forall₂ R as bs) (hR : ∀ a ∈ as, ∀ b, R a b → p b) :
    ∀ b ∈ bs, p b := by
  induction h with
  | nil => simp
  | @cons a b as bs hab _ ih =>
    intro c hc
    rcases List.mem_cons.mp hc with rfl | hc
    · exact hR a (by simp) c hab
    · exact ih (fun a' ha' => hR a' (by simp [ha'])) c hc

theorem expand_pseudo_eq_ok {enc : Encoder} {q : Pseudo} {values : List OperandValue}
    {ss : List MachineStep} : enc.expand (.pseudo q) values = .ok ss ↔
      q.expansion.mapM (expandStep enc.table values) = .ok ss ∧ ss.length = q.count := by
  rw [expand, except_bind_eq_ok]
  constructor
  · rintro ⟨steps, hsteps, h⟩
    split at h
    · next hlen =>
      cases h
      exact ⟨hsteps, hlen⟩
    · cases h
  · rintro ⟨hsteps, hlen⟩
    exact ⟨ss, hsteps, if_pos hlen⟩

theorem forall₂_expand {enc : Encoder} {q : Pseudo} {values : List OperandValue}
    {ss : List MachineStep} (h : enc.expand (.pseudo q) values = .ok ss) :
    List.Forall₂ (fun step s => expandStep enc.table values step = .ok s) q.expansion ss :=
  mapM_eq_ok (expand_pseudo_eq_ok.mp h).1

theorem mem_instructions_of_expand {enc : Encoder} {t : Token} {m : Mnemonic}
    (hm : (enc.recognise t).value = some m) {values : List OperandValue} {ss : List MachineStep}
    (h : enc.expand m values = .ok ss) : ∀ s ∈ ss, s.instruction ∈ enc.table.instructions := by
  cases m with
  | machine i =>
    cases h
    intro s hs
    rw [List.mem_singleton.mp hs]
    exact mem_instructions_of_recognise hm
  | pseudo p =>
    exact forall_of_forall₂ (forall₂_expand h) fun _ _ _ hs => mem_instructions_of_expandStep hs

theorem mnemonic_parse {m : Mnemonic} {t : Token} {operands : List (List Token)}
    {q : ParsedInstruction} (h : (parse m t operands).value = some q) : q.mnemonic = m := by
  unfold parse at h
  split at h
  · obtain ⟨ops, -, rfl⟩ := Option.map_eq_some_iff.mp h
    rfl
  · cases h

theorem mem_placed {loc : Address} {ss : List MachineStep} {p : Address × MachineStep}
    (h : p ∈ placed loc ss) : p.2 ∈ ss ∧ p.1.sectionName = loc.sectionName := by
  induction ss generalizing loc with
  | nil => cases h
  | cons s ss ih =>
    rcases List.mem_cons.mp h with rfl | h
    · exact ⟨by simp, rfl⟩
    · exact ⟨List.mem_cons_of_mem _ (ih h).1, (ih h).2⟩

end Encoder

end MipsToolchain
