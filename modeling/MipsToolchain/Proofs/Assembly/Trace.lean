import MipsToolchain.Proofs.Assembly.Uninitialised

namespace MipsToolchain

open Diagnostic Guarded MipsToolchain.Module

namespace Environment

/-- The machine instructions that a statement stands for, each with its place. Nothing is left of an
instruction whose operands have no values. -/
def instructionSteps (env : Environment) (enc : Encoder) (b : StatementBody) :
    Guarded (List (Address × MachineStep)) := do
  match ← enc.recognise b.head with
  | none => pure []
  | some m =>
    match ← Encoder.parse m b.head b.args with
    | none => pure []
    | some p =>
      match ← Encoder.evaluateAll env.context p.operands with
      | none => pure []
      | some values => return Encoder.placed env.location (← enc.expand p.mnemonic values)

def bodySteps (env : Environment) (enc : Encoder) (s : Statement) :
    Guarded (List (Address × MachineStep)) :=
  match s.body with
  | none => pure []
  | some b => if !b.isDirective && b.isInstruction then env.instructionSteps enc b else pure []

def lineSteps (env : Environment) (enc : Encoder) (file : String) (number : Int)
    (text : String) : Guarded (List (Address × MachineStep)) := do
  let tokens ← tokenizeLine file number text
  let (s, ok) ← Statement.parse tokens
  if ok then (← env.prepare s).bodySteps enc s else pure []

def linesSteps (enc : Encoder) (file : String) :
    Int → List String → Environment → Guarded (List (Address × MachineStep))
  | _, [], _ => pure []
  | number, text :: rest, env => do
    let steps ← env.lineSteps enc file number text
    let env ← env.line enc file number text
    return steps ++ (← linesSteps enc file (number + 1) rest env)

end Environment

/-- The machine instructions of a file, each with its place in the module. -/
def machineSteps (s : Settings) (f : Source.File) : Guarded (List (Address × MachineStep)) :=
  Environment.linesSteps s.encoder f.name 1 f.lines (.initial { name := f.name, order := s.order })

namespace Environment

open Encoder

/-- What is left of a machine instruction in a module. -/
structure Issued (enc : Encoder) (m : Module) (p : Address × MachineStep) : Prop where
  instruction : p.2.instruction ∈ enc.table.instructions
  named : p.1.isRelocatable
  word : ∃ w, EncodedAs p w ∧ m.Stored p.1 w

theorem Issued.mono {enc : Encoder} {m m' : Module} {p : Address × MachineStep}
    (h : Issued enc m p) (hg : m.Grows m') (hs : m'.Sized) : Issued enc m' p := by
  obtain ⟨w, hw, hst⟩ := h.word
  exact ⟨h.instruction, h.named, w, hw, hg.stored hs hst⟩

theorem storeWords_spec {ss : List MachineStep} {ws : List EncodedWord} {env env' : Environment}
    (h : storeWords true ws env = .ok env')
    (hws : List.Forall₂ EncodedAs (placed env.location ss) ws) :
    Advances env env' ∧ (env'.module.Sized → env.module.Bounded →
      ∀ p ∈ placed env.location ss, ∃ w, EncodedAs p w ∧ env'.module.Stored p.1 w) := by
  induction ss generalizing ws env with
  | nil =>
    cases hws
    cases h
    exact ⟨.refl _, fun _ _ p hp => by cases hp⟩
  | cons s ss ih =>
    cases hws with
    | cons hw hws =>
      rw [storeWords_cons] at h
      obtain ⟨env₁, ht, h⟩ := except_bind_eq_ok.mp h
      obtain ⟨env₂, ha, h⟩ := except_bind_eq_ok.mp h
      obtain ⟨hadv, hplace, hstored⟩ := storeWord_spec ht ha fun r hr => hw.location hr
      rw [← hplace] at hws
      obtain ⟨hadv', hissued⟩ := ih h hws
      refine ⟨hadv.trans hadv', fun hs hb p hp => ?_⟩
      have hs₂ := hadv'.grows.sized hs
      rcases List.mem_cons.mp hp with rfl | hp
      · exact ⟨_, hw, hadv'.grows.stored hs (hstored rfl hs₂ hb)⟩
      · rw [← hplace] at hp
        exact hissued hs (hadv.grows.bounded hs₂ hb) p hp

theorem instructionSteps_of_expand {env : Environment} {enc : Encoder} {b : StatementBody}
    {m : Mnemonic} (hm : (enc.recognise b.head).value = some m)
    {q : ParsedInstruction} (hq : (parse m b.head b.args).value = some q)
    {values : List OperandValue} {ss : List MachineStep}
    (hev : (evaluateAll env.context q.operands).Gives (some values))
    (hss : enc.expand q.mnemonic values = .ok ss) :
    (env.instructionSteps enc b).Gives (placed env.location ss) := by
  unfold instructionSteps
  refine .bind (.ofReported _) ?_
  rw [hm]
  refine .bind (.ofReported _) ?_
  rw [hq]
  exact .bind hev (.bind (.ofExcept hss) (.pure _))

/-- What a piece of text that stands for machine instructions does: the state advances, each of the
instructions is left in the module, and uninitialised sections get nothing else. -/
structure Issues (enc : Encoder) (env : Environment)
    (steps : Guarded (List (Address × MachineStep))) (env' : Environment) : Prop where
  advances : Advances env env'
  issued : ∃ ps, steps.Gives ps ∧ env.module.Fills (ps.map Prod.fst) env'.module ∧
    (env'.module.Sized → env.module.Bounded → env.current.isEmpty = false →
      ∀ p ∈ ps, Issued enc env'.module p)

theorem Issues.of_empty {enc : Encoder} {env env' : Environment}
    {steps : Guarded (List (Address × MachineStep))} (h : MovesBy .data env env')
    (hs : steps.Gives []) : Issues enc env steps env' :=
  ⟨h.advances, [], hs, h.fills, by simp⟩

theorem Issues.of_pure {enc : Encoder} {env env' : Environment} (h : MovesBy .data env env') :
    Issues enc env (pure []) env' :=
  .of_empty h (.pure [])

theorem issues_instruction (env : Environment) (enc : Encoder) (b : StatementBody) :
    (env.instruction enc b).Yields (Issues enc env (env.instructionSteps enc b)) := by
  refine .mono (instruction_yields env enc b) fun env' ⟨m, q, r, hm, hq, hr, he, hstore⟩ => ?_
  obtain ⟨hok, values, ss, hev, hss, hws⟩ := encode_spec enc env.context q r hr he
  rw [hok] at hstore
  obtain ⟨hadv, hissued⟩ := storeWords_spec hstore hws
  have hknown : q.mnemonic.Known := mnemonic_parse hq ▸ known_recognise hm
  have hfills := fills_storeWords hstore (wellEncoded_encode hknown r hr)
  rw [← hws.length_eq, length_placed, ← map_fst_placed] at hfills
  refine ⟨hadv, _, instructionSteps_of_expand hm hq hev hss, hfills, fun hs hb hn p hp => ?_⟩
  rw [mnemonic_parse hq] at hss
  refine ⟨mem_instructions_of_expand hm hss p.2 (mem_placed hp).1, ?_, hissued hs hb p hp⟩
  have hsec : p.1.sectionName = env.current := (mem_placed hp).2
  rw [Address.isRelocatable, hsec, hn]
  rfl

theorem issues_body (env : Environment) (enc : Encoder) {s : Statement}
    (hs : ∀ b, s.body = some b → HasTexts b ∧ env.AlignedFor b) :
    (env.body enc s).Yields (Issues enc env (env.bodySteps enc s)) := by
  unfold body bodySteps
  cases hb : s.body with
  | none => exact .pure (.of_pure (.refl env))
  | some b =>
    obtain ⟨htexts, haligned⟩ := hs b hb
    by_cases hd : b.isDirective = true
    · have hi := StatementBody.not_isInstruction hd
      simp only [hd, if_true, Bool.not_true, Bool.false_and, Bool.false_eq_true, if_false]
      exact .ofEnsures (.mono (moves_directive htexts hi haligned) fun _ h => .of_pure h)
    · by_cases hi : b.isInstruction = true
      · simp only [hd, hi, if_true, Bool.not_false, Bool.and_self, Bool.false_eq_true, if_false]
        exact issues_instruction env enc b
      · simp only [hd, hi, Bool.and_false, Bool.false_eq_true, if_false]
        exact .pure (.of_pure (.refl env))

theorem lineSteps_of_parse {env env' : Environment} {enc : Encoder} {file : String} {number : Int}
    {text : String} {s : Statement}
    (hs : (Statement.parse (tokenizeLine file number text).value).value = (s, true))
    (hr : (env.prepare s).Gives env') {ps : List (Address × MachineStep)}
    (hps : (env'.bodySteps enc s).Gives ps) : (env.lineSteps enc file number text).Gives ps := by
  unfold lineSteps
  refine .bind (.ofReported _) (.bind (.ofReported _) ?_)
  rw [hs]
  exact .bind hr hps

theorem lineSteps_of_malformed {env : Environment} {enc : Encoder} {file : String} {number : Int}
    {text : String} {s : Statement}
    (hs : (Statement.parse (tokenizeLine file number text).value).value = (s, false)) :
    (env.lineSteps enc file number text).Gives [] := by
  unfold lineSteps
  refine .bind (.ofReported _) (.bind (.ofReported _) ?_)
  rw [hs]
  exact .pure []

theorem issues_line (env : Environment) (enc : Encoder) (file : String) (number : Int)
    (text : String) : (env.line enc file number text).Yields
      (Issues enc env (env.lineSteps enc file number text)) := by
  unfold line
  refine .bind fun tokens ht _ => ?_
  cases liftReported_eq_ok.mp ht
  refine .bind fun x hx _ => ?_
  cases liftReported_eq_ok.mp hx
  rcases hs : (Statement.parse (tokenizeLine file number text).value).value with ⟨s, ok⟩
  cases ok with
  | false => exact .pure (.of_empty (.refl env) (lineSteps_of_malformed hs))
  | true =>
    change (env.statement enc s).Yields _
    rw [statement_eq]
    refine .bind fun r hr he => ?_
    have hreadable : ∀ t ∈ (tokenizeLine file number text).value.tokens, t.Readable := fun t =>
      readable_of_mem_tokenizeLine
    obtain ⟨hmoves, -, haligned⟩ := prepare_spec env (Statement.zeroFree_labels hs hreadable) r hr
    have hbody : ∀ b, s.body = some b → HasTexts b ∧ r.value.AlignedFor b := fun b hb =>
      ⟨Statement.hasTexts_parse hs hb hreadable, haligned b hb⟩
    refine .mono (issues_body r.value enc hbody) fun env' h => ?_
    obtain ⟨ps, hps, hfills, hissued⟩ := h.issued
    have hadv := hmoves.advances
    have hsteps := lineSteps_of_parse hs (.ofOk hr) hps
    refine ⟨hadv.trans h.advances, ps, hsteps, hmoves.data.fills.trans hfills, fun hsized hb hn => ?_⟩
    have hsized₁ := h.advances.grows.sized hsized
    exact hissued hsized (hadv.grows.bounded hsized₁ hb) (hadv.named hn)

/-- Assembling consecutive lines leaves every instruction of each of them in the module, since what
comes later only adds to it. -/
theorem issues_lines (enc : Encoder) (file : String) (number : Int) (texts : List String)
    (env : Environment) : (lines enc file number texts env).Yields
      (Issues enc env (linesSteps enc file number texts env)) := by
  induction texts generalizing number env with
  | nil => exact .pure (.of_pure (.refl env))
  | cons text rest ih =>
    rw [lines]
    refine .bind fun r hr he => ?_
    have hline := issues_line env enc file number text r hr he
    refine .mono (ih (number + 1) r.value) fun env' hrest => ?_
    obtain ⟨ps, hps, hfills, hissued⟩ := hline.issued
    obtain ⟨qs, hqs, hfills', hissued'⟩ := hrest.issued
    refine ⟨hline.advances.trans hrest.advances, ps ++ qs, ?_, ?_, fun hs hb hn p hp => ?_⟩
    · exact .bind hps (.bind (.ofOk hr) (.bind hqs (.pure _)))
    · rw [List.map_append]
      exact hfills.trans hfills'
    · have hs₁ := hrest.advances.grows.sized hs
      rcases List.mem_append.mp hp with hp | hp
      · exact (hissued hs₁ hb hn p hp).mono hrest.advances.grows hs
      · exact hissued' hs (hline.advances.grows.bounded hs₁ hb) (hline.advances.named hn) p hp

end Environment

section Files

variable {s : Settings}

theorem assembleFile_spec {f : Source.File} {r : Reported Module} (h : assembleFile s f = .ok r)
    (he : errorCount r.diagnostics = 0) :
    r.value.order = s.order ∧ (∃ ps, (machineSteps s f).Gives ps ∧
      (r.value.Sized → ∀ p ∈ ps, Environment.Issued s.encoder r.value p)) ∧
    (r.value.Sized → r.value.references.Pairwise Reference.Disjoint) := by
  obtain ⟨out, hl, hle, hkeeps, -⟩ := assembleLines_eq_ok h
  have hissues := Environment.issues_lines _ _ _ _ _ out hl (by omega)
  obtain ⟨ps, hps, -, hissued⟩ := hissues.issued
  have hfinal : out.value.module.Grows r.value := .of_keepsContents hkeeps
  refine ⟨hkeeps.order.trans hissues.advances.grows.order, ⟨ps, hps, fun hs p hp => ?_⟩, fun hs => ?_⟩
  · have hb : (Environment.initial { name := f.name, order := s.order }).module.Bounded :=
      fun q hq => by cases hq
    exact (hissued (hfinal.sized hs) hb rfl p hp).mono hfinal hs
  · obtain ⟨rs, hrs, hdisj⟩ := hissues.advances.grows.references
    rw [hkeeps.references, hrs]
    exact (hdisj (hfinal.sized hs)).1

theorem fills_assembleFile {f : Source.File} {r : Reported Module} (h : assembleFile s f = .ok r)
    (he : errorCount r.diagnostics = 0) : ∃ ps, (machineSteps s f).Gives ps ∧
      Fills (ps.map Prod.fst) { name := f.name, order := s.order } r.value := by
  obtain ⟨out, hl, hle, hkeeps, -⟩ := assembleLines_eq_ok h
  obtain ⟨ps, hps, hfills, -⟩ := (Environment.issues_lines _ _ _ _ _ out hl (by omega)).issued
  refine ⟨ps, hps, ?_⟩
  have hrun := hfills.trans (.of_keepsContents hkeeps)
  rwa [List.append_nil] at hrun

theorem assembleFiles_eq_ok {fs : List Source.File} {r : Reported (List Module)}
    (h : assembleFiles s fs = .ok r) (he : errorCount r.diagnostics = 0) {i : Nat}
    {f : Source.File} (hf : fs[i]? = some f) :
    ∃ a, assembleFile s f = .ok a ∧ errorCount a.diagnostics = 0 ∧ r.value[i]? = some a.value := by
  induction fs generalizing i r with
  | nil => cases hf
  | cons f₀ fs ih =>
    obtain ⟨a, b, ha, hb, rfl⟩ := bind_eq_ok.mp h
    obtain ⟨c, d, hc, hd, rfl⟩ := bind_eq_ok.mp hb
    cases pure_eq_ok.mp hd
    simp only [errorCount_append] at he
    cases i with
    | zero =>
      cases hf
      exact ⟨a, ha, by omega, rfl⟩
    | succ i =>
      obtain ⟨x, hx, hex, hval⟩ := ih hc (by omega) hf
      exact ⟨x, hx, hex, hval⟩

theorem length_assembleFiles {fs : List Source.File} {r : Reported (List Module)}
    (h : assembleFiles s fs = .ok r) : r.value.length = fs.length := by
  induction fs generalizing r with
  | nil =>
    cases pure_eq_ok.mp h
    rfl
  | cons f fs ih =>
    obtain ⟨a, b, ha, hb, rfl⟩ := bind_eq_ok.mp h
    obtain ⟨c, d, hc, hd, rfl⟩ := bind_eq_ok.mp hb
    cases pure_eq_ok.mp hd
    simp [ih hc]

theorem assembled_module {fs : List Source.File} {ms : List Module} {ds : List Diagnostic}
    (h : assembleFiles s fs = .ok ⟨ms, ds⟩) (he : errorCount ds = 0) {i : Nat} {m : Module}
    (hm : ms[i]? = some m) : ∃ f a, fs[i]? = some f ∧ assembleFile s f = .ok a ∧
      errorCount a.diagnostics = 0 ∧ m = a.value := by
  have hi : i < fs.length := by
    rw [← length_assembleFiles h]
    exact (List.getElem?_eq_some_iff.mp hm).1
  have hf : fs[i]? = some fs[i] := List.getElem?_eq_getElem hi
  obtain ⟨a, hfile, hea, hval⟩ := assembleFiles_eq_ok h he hf
  exact ⟨fs[i], a, hf, hfile, hea, Option.some.inj (hm.symm.trans hval)⟩

end Files

end MipsToolchain
