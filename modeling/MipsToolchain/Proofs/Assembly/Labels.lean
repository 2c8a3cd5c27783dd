import MipsToolchain.Proofs.Assembly.Moves
import MipsToolchain.Proofs.Object.Persistence

namespace MipsToolchain

open Diagnostic Guarded MipsToolchain.Module EncodedWord

namespace Encoder

theorem length_expand {enc : Encoder} {m : Mnemonic} {values : List OperandValue}
    {ss : List MachineStep} (h : enc.expand m values = .ok ss) : ss.length = m.count := by
  cases m with
  | machine i =>
    cases h
    rfl
  | pseudo p => exact (expand_pseudo_eq_ok.mp h).2

theorem length_encode (enc : Encoder) (ctx : EvalContext) (p : ParsedInstruction) :
    (enc.encode ctx p).Ensures fun x => x.1.length = p.mnemonic.count := by
  intro r hr
  obtain ⟨vs, -, -, ⟨-, hval⟩ | ⟨values, ss, ws, -, hss, hws, hval, -⟩⟩ := encode_eq_ok hr
  · rw [hval]
    exact List.length_replicate
  · rw [← hval, ← (encodeSteps_eq_ok hws).length_eq, length_placed, length_expand hss]

/-- How many words the body of a statement takes, if it is an instruction or lists words. -/
def wordCount (enc : Encoder) (b : StatementBody) : Nat :=
  if b.isInstruction then ((enc.recognise b.head).value.map Mnemonic.count).getD 0
  else b.args.length

end Encoder

namespace Environment

/-- The words that the body of a statement stands for, if it is an instruction or lists words. -/
inductive Produces (enc : Encoder) (env : Environment) (b : StatementBody) : List UInt32 → Prop
  | instruction {m : Mnemonic} {q : ParsedInstruction} {ws : List EncodedWord} :
      b.isInstruction → (enc.recognise b.head).value = some m →
      (Encoder.parse m b.head b.args).value = some q →
      (enc.encode env.context q).Gives (ws, true) → Produces enc env b (ws.map (·.value))
  | words {ws : List UInt32} : b.isDirective → b.name = ".word" →
      List.Forall₂ (fun arg w => ∃ e v, (Expr.parse arg.1 b.head.location).value = some e ∧
        (e.eval ⟨env.resolve, .relative env.current
          (Int64.ofNat (env.module.offset env.current + 4 * arg.2))⟩).Gives (some v) ∧
        w = Isa.lowWord v.number) b.args.zipIdx ws → Produces enc env b ws

def wordPlace (env : Environment) (k : Nat) : Address :=
  .relative env.current (Int64.ofNat (env.module.offset env.current + 4 * k))

/-- The words of the body of a statement together with the references that they leave. -/
inductive Encodes (enc : Encoder) (env : Environment) (b : StatementBody) :
    List EncodedWord → Prop
  | instruction {m : Mnemonic} {q : ParsedInstruction} {ws : List EncodedWord} :
      b.isInstruction → (enc.recognise b.head).value = some m →
      (Encoder.parse m b.head b.args).value = some q →
      (enc.encode env.context q).Gives (ws, true) → Encodes enc env b ws
  | words {ws : List EncodedWord} : b.isDirective → b.name = ".word" →
      List.Forall₂ (fun arg w => ∃ e v, (Expr.parse arg.1 b.head.location).value = some e ∧
        (e.eval ⟨env.resolve, env.wordPlace arg.2⟩).Gives (some v) ∧
        w = dataWord (env.wordPlace arg.2) v) b.args.zipIdx ws → Encodes enc env b ws

theorem Encodes.kind {enc : Encoder} {env : Environment} {b : StatementBody} {ws : List EncodedWord}
    (h : Encodes enc env b ws) : b.isInstruction ∨ b.isDirective ∧ b.name = ".word" := by
  cases h with
  | instruction hi => exact .inl hi
  | words hd hname => exact .inr ⟨hd, hname⟩

theorem Encodes.produces {enc : Encoder} {env : Environment} {b : StatementBody}
    {ws : List EncodedWord} (h : Encodes enc env b ws) : Produces enc env b (ws.map (·.value)) := by
  cases h with
  | instruction hi hm hq hws => exact .instruction hi hm hq hws
  | words hd hname hws =>
    refine .words hd hname (List.forall₂_map_right_iff.mpr (hws.imp ?_))
    rintro arg w ⟨e, v, he, hv, rfl⟩
    exact ⟨e, v, he, hv, rfl⟩

section Names

variable {env env' : Environment}

theorem resolve_track {m : Module} {r : Reference} {u : Unit}
    (h : env.module.perform (track r) = .ok (u, m)) :
    ({ env with module := m } : Environment).resolve = env.resolve := by
  funext n
  rcases track_eq_ok h with ⟨-, rfl⟩ | ⟨hnone, hsection, rfl⟩
  · rfl
  · have hsymbol := symbol?_append_new (m := env.module) (s := .mention r.symbol) hnone n
    unfold symbol? at hsymbol
    unfold resolve
    simp only [symbol?, hsymbol]
    by_cases hn : n = r.symbol
    · subst hn
      unfold symbol? at hnone
      simp [Symbol.mention, hnone, hsection]
    · simp only [Symbol.mention, hn, if_false]
      rfl

theorem resolve_append {m : Module} {bs : List UInt8} (h : Appends env.current bs env.module m)
    (hp : (env.module.section? env.current).isSome) :
    ({ env with module := m } : Environment).resolve = env.resolve := by
  have hnames : ∀ n, m.isSectionName n = env.module.isSectionName n := by
    intro n
    unfold isSectionName
    by_cases hn : n = env.current
    · subst hn
      rw [hp, h.present]
    · rw [h.others n hn]
  funext n
  simp only [resolve, symbol?, h.symbols, hnames]

theorem keeps_storeWord {tracked : Bool} {w : EncodedWord} {env₁ : Environment}
    (ht : trackWord tracked w env = .ok env₁)
    (ha : env₁.apply (appendWord env₁.current w.value) = .ok env') :
    KeepsDefinitions env.module env'.module ∧ ((env.module.section? env.current).isSome →
      env'.resolve = env.resolve ∧ (env'.module.section? env'.current).isSome) := by
  obtain ⟨k, m', hm', rfl⟩ := apply_eq_ok ha
  obtain ⟨-, happ⟩ := appends_appendWord hm'
  rcases trackWord_eq_ok ht with ⟨rfl, -⟩ | ⟨r, u, m₁, -, -, htrack, rfl⟩
  · exact ⟨.of_symbols happ.symbols, fun hp => ⟨resolve_append happ hp, happ.present⟩⟩
  · refine ⟨(keepsDefinitions_track htrack).trans (.of_symbols happ.symbols), fun hp => ?_⟩
    have hp₁ : (m₁.section? env.current).isSome := by
      simpa only [section?, (perform_track htrack).1] using hp
    exact ⟨(resolve_append happ hp₁).trans (resolve_track htrack), happ.present⟩

theorem keeps_storeWords {tracked : Bool} {ws : List EncodedWord}
    (h : storeWords tracked ws env = .ok env') :
    KeepsDefinitions env.module env'.module ∧ ((env.module.section? env.current).isSome →
      env'.resolve = env.resolve ∧ (env'.module.section? env'.current).isSome) := by
  induction ws generalizing env with
  | nil =>
    cases h
    exact ⟨.of_symbols rfl, fun hp => ⟨rfl, hp⟩⟩
  | cons w ws ih =>
    rw [storeWords_cons] at h
    obtain ⟨env₁, ht, h⟩ := except_bind_eq_ok.mp h
    obtain ⟨env₂, ha, h⟩ := except_bind_eq_ok.mp h
    obtain ⟨hkeeps, hnames⟩ := keeps_storeWord ht ha
    obtain ⟨hkeeps', hnames'⟩ := ih h
    refine ⟨hkeeps.trans hkeeps', fun hp => ?_⟩
    obtain ⟨hresolve, hp₂⟩ := hnames hp
    obtain ⟨hresolve', hp'⟩ := hnames' hp₂
    exact ⟨hresolve'.trans hresolve, hp'⟩

theorem Move.keepsDefinitions {payload : Payload} (h : Move payload env env') :
    KeepsDefinitions env.module env'.module := by
  cases h with
  | align h =>
    obtain ⟨u, m, hm, rfl⟩ := apply_eq_ok h
    obtain ⟨⟨bs, happ⟩, -⟩ := appends_align hm
    exact .of_symbols happ.symbols
  | reserve h =>
    obtain ⟨k, m, hm, rfl⟩ := apply_eq_ok h
    exact .of_symbols (appends_reserve hm).symbols
  | append _ h =>
    obtain ⟨k, m, hm, rfl⟩ := apply_eq_ok h
    exact .of_symbols (appends_append hm).2.symbols
  | store _ _ _ _ _ h => exact (keeps_storeWords h).1
  | switch _ _ h =>
    obtain ⟨env₁, ha, rfl⟩ := except_map_eq_ok.mp h
    obtain ⟨s, m, hm, rfl⟩ := apply_eq_ok ha
    exact .of_symbols (appends_addSection hm).2.symbols
  | define _ _ h =>
    obtain ⟨m, hm, rfl⟩ := edit_eq_ok h
    exact (keepsDefinitions_define hm).1
  | declare _ _ h =>
    obtain ⟨m, hm, rfl⟩ := edit_eq_ok h
    exact keepsDefinitions_declare hm
  | option => exact .of_symbols rfl

theorem MovesBy.keepsDefinitions {payload : Payload} (h : MovesBy payload env env') :
    KeepsDefinitions env.module env'.module := by
  induction h with
  | refl => exact .of_symbols rfl
  | tail _ hmove ih => exact ih.trans hmove.keepsDefinitions

end Names

theorem checkSymbolName_yields (t : Token) : (checkSymbolName t).Yields fun ok => ok = true := by
  unfold checkSymbolName
  split
  · exact .pure rfl
  · exact .ofReport rfl

theorem defineSymbol_yields (env : Environment) (t : Token) (type : SymbolType) (a : Address) :
    (env.defineSymbol t type a).Yields fun env' => ∃ m,
      env.module.perform (Module.define t.text type a t.location) = .ok (true, m) ∧
        env' = { env with module := m } := by
  unfold defineSymbol
  refine .andThen (.ofExcept fun x hx => hx) fun ⟨defined, env'⟩ hx => ?_
  obtain ⟨m, hm, rfl⟩ := edit_eq_ok hx
  cases defined with
  | true => exact .pure ⟨m, hm, rfl⟩
  | false => exact .ofReport rfl

theorem defineLabels_yields {ts : List Token}
    (ht : ∀ t ∈ ts, (RawText.ofString t.text).ZeroFree) (env : Environment) :
    (defineLabels ts env).Yields fun env' =>
      ∀ t ∈ ts, env'.module.Defines t.text .label env.location := by
  induction ts generalizing env with
  | nil => exact .pure (by simp)
  | cons t ts ih =>
    have hrest := (List.forall_mem_cons.mp ht).2
    unfold defineLabels
    refine .andThen (.ofReported (checkSymbolName_yields t)) fun ok hok => ?_
    rw [if_pos hok]
    refine .andThen (defineSymbol_yields env t .label _) fun env₁ hdefine => ?_
    obtain ⟨m, hm, heq⟩ := hdefine
    have hlocation : env₁.location = env.location := by
      rw [heq, location, location, (keepsContents_define hm).offset]
    intro r hr he u hu
    have hlater := ih hrest env₁ r hr he
    rw [hlocation] at hlater
    rcases List.mem_cons.mp hu with rfl | hu
    · have hdefined : env₁.module.Defines u.text .label env.location := by
        rw [heq]
        exact (keepsDefinitions_define hm).2 rfl
      exact (defineLabels_spec hrest env₁ r hr).1.keepsDefinitions _ _ _ hdefined
    · exact hlater u hu

theorem prepare_yields (env : Environment) {s : Statement}
    (hl : ∀ t ∈ s.labels, (RawText.ofString t.text).ZeroFree) :
    (env.prepare s).Yields fun env' =>
      (∀ t ∈ s.labels, env'.module.Defines t.text .label env'.location) ∧
      ∀ b, s.body = some b → 0 < alignmentOf b → (env'.module.section? env'.current).isSome := by
  have hlabels : ∀ env₁ : Environment, (defineLabels s.labels env₁).Yields fun env' =>
      (∀ t ∈ s.labels, env'.module.Defines t.text .label env'.location) ∧
      ((env₁.module.section? env₁.current).isSome →
        (env'.module.section? env'.current).isSome) := by
    intro env₁ r hr he
    obtain ⟨-, hcurrent, hkeeps⟩ := defineLabels_spec hl env₁ r hr
    have hdefined := defineLabels_yields hl env₁ r hr he
    refine ⟨?_, fun hp => by rwa [hcurrent, hkeeps.section?]⟩
    rwa [location, hcurrent, hkeeps.offset]
  unfold prepare
  dsimp only
  split
  · refine .andThen (.ofExcept fun x hx => hx) fun env₁ h => ?_
    obtain ⟨u, m, hm, rfl⟩ := apply_eq_ok h
    obtain ⟨⟨bs, happ⟩, -⟩ := appends_align hm
    exact .mono (hlabels _) fun env' h' => ⟨h'.1, fun _ _ _ => h'.2 happ.present⟩
  · next hzero =>
    rw [pure_bind]
    refine .mono (hlabels env) fun env' h' => ⟨h'.1, fun b hb hpos => ?_⟩
    rw [hb] at hzero
    exact absurd hpos hzero

theorem evaluate_yields (b : StatementBody) (env : Environment) (arg : List Token) :
    (b.evaluate env arg).Yields fun x => ∃ e v,
      (Expr.parse arg b.head.location).value = some e ∧ (e.eval env.context).Gives (some v) ∧
        x = some v := by
  unfold StatementBody.evaluate
  refine .bind fun r hr he => ?_
  cases liftReported_eq_ok.mp hr
  obtain ⟨e, hparse⟩ := Option.isSome_iff_exists.mp (Expr.parse_yields arg _ he)
  rw [hparse]
  intro r hr he
  obtain ⟨v, hv⟩ := Option.isSome_iff_exists.mp (Expr.eval_yields env.context e r hr he)
  exact ⟨e, v, rfl, hv ▸ .ofOk hr, hv⟩

theorem storeWords_append {tracked : Bool} {ws us : List EncodedWord} {env env₁ env' : Environment}
    (h : storeWords tracked ws env = .ok env₁) (h' : storeWords tracked us env₁ = .ok env') :
    storeWords tracked (ws ++ us) env = .ok env' := by
  induction ws generalizing env with
  | nil =>
    cases h
    exact h'
  | cons w ws ih =>
    rw [storeWords_cons] at h
    obtain ⟨env₂, ht, h⟩ := except_bind_eq_ok.mp h
    obtain ⟨env₃, ha, h⟩ := except_bind_eq_ok.mp h
    rw [List.cons_append, storeWords_cons]
    exact except_bind_eq_ok.mpr ⟨env₂, ht, except_bind_eq_ok.mpr ⟨env₃, ha, ih h⟩⟩

theorem dataArguments_yields (b : StatementBody) (args : List (List Token)) (env : Environment)
    (hp : (env.module.section? env.current).isSome) {o k : Nat}
    (ho : env.module.offset env.current = o + 4 * k) :
    (dataArguments b .word args env).Yields fun env' => ∃ ws, storeWords true ws env = .ok env' ∧
      List.Forall₂ (fun arg w => ∃ e v, (Expr.parse arg.1 b.head.location).value = some e ∧
        (e.eval ⟨env.resolve, .relative env.current (Int64.ofNat (o + 4 * arg.2))⟩).Gives (some v) ∧
        w = dataWord (.relative env.current (Int64.ofNat (o + 4 * arg.2))) v)
        (args.zipIdx k) ws := by
  induction args generalizing env k with
  | nil => exact .pure ⟨[], rfl, .nil⟩
  | cons arg rest ih =>
    rw [dataArguments]
    refine .bind fun r hr he => .andThen (.ofExcept fun x hx => hx) fun env₁ hx => ?_
    obtain ⟨q, hq, hle, hn, ht⟩ := dataValue_word hr
    obtain ⟨e, v, hparse, heval, hv⟩ := evaluate_yields b env arg q hq (by omega)
    rw [hv] at hn ht
    have hstore := storeWords_dataWord ht (hn ▸ hx)
    have hwrites := writes_storeWords hstore
    obtain ⟨hresolve, hp₁⟩ := (keeps_storeWords hstore).2 hp
    have ho₁ : env₁.module.offset env₁.current = o + 4 * (k + 1) := by
      rw [hwrites.current, hwrites.offset, ho, List.length_singleton]
      omega
    refine .mono (ih env₁ hp₁ ho₁) fun env' hrest => ?_
    obtain ⟨ws, hws, hwords⟩ := hrest
    rw [hresolve, hwrites.current] at hwords
    refine ⟨_, storeWords_append hstore hws, .cons ⟨e, v, hparse, ?_, ?_⟩ hwords⟩
    · rw [context, location, ho] at heval
      exact heval
    · rw [location, ho]
      rfl

theorem checkCount_yields (b : StatementBody) (least : Nat) (most : Option Nat) :
    (b.checkCount least most).Yields fun ok => ok = true := by
  unfold StatementBody.checkCount
  split
  · exact .pure rfl
  · exact .ofReport rfl

theorem checkInitialised_yields (env : Environment) (b : StatementBody) :
    (env.checkInitialised b).Yields fun ok => ok = true := by
  unfold checkInitialised
  split
  · exact .ofReport rfl
  · exact .pure rfl

theorem body_yields {env : Environment} {enc : Encoder} {s : Statement} {b : StatementBody}
    (hb : s.body = some b) (hkind : b.isInstruction ∨ b.isDirective ∧ b.name = ".word")
    (hp : (env.module.section? env.current).isSome) :
    (env.body enc s).Yields fun env' => ∃ ws, storeWords true ws env = .ok env' ∧
      Encodes enc env b ws ∧ ws.length = enc.wordCount b := by
  unfold body
  rw [hb]
  dsimp only
  rcases hkind with hi | ⟨hd, hname⟩
  · rw [if_neg (by simp [StatementBody.not_isDirective hi]), if_pos hi]
    refine .mono (instruction_yields env enc b) fun env' ⟨m, q, r, hm, hq, hr, he, hstore⟩ => ?_
    obtain ⟨hok, -⟩ := Encoder.encode_spec enc env.context q r hr he
    have hlen := Encoder.length_encode enc env.context q r hr
    rw [hok] at hstore
    refine ⟨r.value.1, hstore, .instruction hi hm hq ⟨r.diagnostics, ?_⟩, ?_⟩
    · rw [hr, ← hok]
    · rw [hlen, Encoder.mnemonic_parse hq, Encoder.wordCount, if_pos hi, hm]
      rfl
  · rw [if_pos hd, directive]
    simp only [hname]
    unfold dataDirective
    refine .andThen (.ofReported (checkCount_yields b 1 none)) fun ok hok => ?_
    rw [if_pos hok]
    refine .andThen (.ofReported (checkInitialised_yields env b)) fun ok hok => ?_
    rw [if_pos hok]
    refine .mono (dataArguments_yields b b.args env hp (k := 0) rfl) fun env' ⟨ws, hws, hwords⟩ => ?_
    refine ⟨ws, hws, .words hd hname hwords, ?_⟩
    rw [Encoder.wordCount, if_neg (by simp [StatementBody.not_isInstruction hd])]
    simpa using hwords.length_eq.symm

theorem alignmentOf_of_words {b : StatementBody}
    (h : b.isInstruction ∨ b.isDirective ∧ b.name = ".word") : alignmentOf b = 2 := by
  unfold alignmentOf
  split
  · rfl
  · next hi =>
    rcases h with hi' | ⟨-, hname⟩
    · exact absurd hi' hi
    · simp [hname]

/-- A line whose statement is an instruction or lists words: where its labels and its words go. -/
theorem line_encodes {env : Environment} {enc : Encoder} {file : String} {number : Int}
    {text : String} {s : Statement} {b : StatementBody}
    (hs : (Statement.parse (tokenizeLine file number text).value).value = (s, true))
    (hb : s.body = some b) (hkind : b.isInstruction ∨ b.isDirective ∧ b.name = ".word") :
    (env.line enc file number text).Yields fun env' => ∃ env₁ ws, (env.prepare s).Gives env₁ ∧
      env₁.current = env.current ∧ 4 ∣ env₁.module.offset env₁.current ∧
      (∀ t ∈ s.labels, env₁.module.Defines t.text .label env₁.location) ∧
      storeWords true ws env₁ = .ok env' ∧ Encodes enc env₁ b ws ∧
      ws.length = enc.wordCount b := by
  have hboundary := alignmentOf_of_words hkind
  unfold line
  refine .bind fun tokens ht _ => ?_
  cases liftReported_eq_ok.mp ht
  refine .bind fun x hx _ => ?_
  cases liftReported_eq_ok.mp hx
  rw [hs]
  change (env.statement enc s).Yields _
  rw [statement_eq]
  refine .bind fun r hr he => ?_
  have hl := Statement.zeroFree_labels hs fun t => readable_of_mem_tokenizeLine
  obtain ⟨-, hcurrent, haligned⟩ := prepare_spec env hl r hr
  obtain ⟨hlabels, hpresent⟩ := prepare_yields env hl r hr he
  have hdvd := haligned b hb
  rw [AlignedFor, hboundary] at hdvd
  refine .mono (body_yields hb hkind (hpresent b hb (by omega))) fun env' hbody => ?_
  obtain ⟨ws, hws, hprod, hlen⟩ := hbody
  exact ⟨r.value, ws, .ofOk hr, hcurrent, hdvd, hlabels, hws, hprod, hlen⟩

theorem line_yields {env : Environment} {enc : Encoder} {file : String} {number : Int}
    {text : String} {s : Statement} {b : StatementBody}
    (hs : (Statement.parse (tokenizeLine file number text).value).value = (s, true))
    (hb : s.body = some b) (hkind : b.isInstruction ∨ b.isDirective ∧ b.name = ".word") :
    (env.line enc file number text).Yields fun env' => ∃ env₁ ws, (env.prepare s).Gives env₁ ∧
      env₁.current = env.current ∧ 4 ∣ env₁.module.offset env₁.current ∧
      (∀ t ∈ s.labels, env₁.module.Defines t.text .label env₁.location) ∧
      storeWords true ws env₁ = .ok env' ∧ Produces enc env₁ b (ws.map (·.value)) ∧
      ws.length = enc.wordCount b := by
  refine .mono (line_encodes hs hb hkind) ?_
  rintro env' ⟨env₁, ws, hprepare, hcurrent, hdvd, hlabels, hws, hencodes, hlen⟩
  exact ⟨env₁, ws, hprepare, hcurrent, hdvd, hlabels, hws, hencodes.produces, hlen⟩

theorem lines_append (enc : Encoder) (file : String) (number : Int) (xs ys : List String)
    (env : Environment) : lines enc file number (xs ++ ys) env =
      lines enc file number xs env >>= lines enc file (number + xs.length) ys := by
  induction xs generalizing number env with
  | nil => simp [lines]
  | cons x xs ih =>
    rw [List.cons_append, lines, lines, bind_assoc]
    congr 1
    funext env₁
    rw [ih, List.length_cons]
    congr 2
    push_cast
    omega

/-- Lines up to one of them, and that one, each of which only adds to sections. -/
theorem lines_later {env : Environment} {enc : Encoder} {file : String} {number : Int}
    {mid rest : List String} {line : String} {r : Reported Environment}
    (h : lines enc file number (mid ++ line :: rest) env = .ok r) :
    ∃ out out', lines enc file number mid env = .ok out ∧
      out.value.line enc file (number + mid.length) line = .ok out' ∧
      env.module.Grows out.value.module ∧ out.value.module.Grows out'.value.module := by
  rw [lines_append] at h
  obtain ⟨out, rest, hmid, hrest, -⟩ := bind_eq_ok.mp h
  obtain ⟨out', -, hline, -⟩ := bind_eq_ok.mp hrest
  exact ⟨out, out', hmid, hline, (moves_lines _ _ _ _ _ _ hmid).advances.grows,
    (moves_line _ _ _ _ _ _ hline).advances.grows⟩

end Environment

/-- Labels point at what they label. In a text without errors, the labels of a line with an
instruction or with words are defined at the place where the words of that line start, these words
are what the line stands for, and what later lines add to the section comes behind them. -/
theorem labels_point_at_words {s : Settings} {name line : String} {pre post : List String}
    {r : Reported Module} (h : assembleLines s name (pre ++ line :: post) = .ok r)
    (he : errorCount r.diagnostics = 0) {st : Statement} {b : StatementBody}
    (hst : (Statement.parse (tokenizeLine name (1 + pre.length) line).value).value = (st, true))
    (hb : st.body = some b) (hkind : b.isInstruction ∨ b.isDirective ∧ b.name = ".word") :
    ∃ env env₁ o words,
      (Environment.lines s.encoder name 1 pre (.initial { name, order := s.order })).Gives env ∧
      (env.prepare st).Gives env₁ ∧ env₁.location = .relative env.current (Int64.ofNat o) ∧
      env₁.Produces s.encoder b words ∧ words.length = s.encoder.wordCount b ∧ 4 ∣ o ∧
      (∀ t ∈ st.labels, r.value.Defines t.text .label (.relative env.current (Int64.ofNat o))) ∧
      (∀ k w, words[k]? = some w →
        r.value.wordIn? r.value.order env.current (o + 4 * k) = some w) ∧
      ∀ mid line' rest, post = mid ++ line' :: rest → ∃ env₂ env₃,
        (Environment.lines s.encoder name 1 (pre ++ line :: mid)
          (.initial { name, order := s.order })).Gives env₂ ∧
        (env₂.line s.encoder name (1 + (pre ++ line :: mid).length) line').Gives env₃ ∧
        ∀ k, env₃.module.byte? env.current k ≠ env₂.module.byte? env.current k →
          o + 4 * s.encoder.wordCount b ≤ k := by
  obtain ⟨out, hout, hle, hkeeps, hsymbols⟩ := assembleLines_eq_ok h
  -- The text is cut at the line, and only that line is looked into.
  rw [Environment.lines_append] at hout
  obtain ⟨out₀, outl, hpre, hl, rfl⟩ := bind_eq_ok.mp hout
  obtain ⟨out₁, outp, hline, hpost, rfl⟩ := bind_eq_ok.mp hl
  simp only [errorCount_append] at hle
  obtain ⟨env₁, ws, hprepare, hcurrent, hdvd, hlabels, hstore, hprod, hlen⟩ :=
    Environment.line_yields hst hb hkind out₁ hline (by omega)
  have hwrites := Environment.writes_storeWords hstore
  have hlater : Environment.Moves out₁.value outp.value := Environment.moves_lines _ _ _ _ _ _ hpost
  have hfinal : out₁.value.module.Grows r.value :=
    hlater.advances.grows.trans (.of_keepsContents hkeeps)
  have hdefinitions : KeepsDefinitions env₁.module r.value :=
    ((Environment.keeps_storeWords hstore).1.trans hlater.keepsDefinitions).trans
      (.of_symbols hsymbols)
  refine ⟨out₀.value, env₁, env₁.module.offset env₁.current, ws.map (·.value), .ofOk hpre, hprepare,
    by rw [← hcurrent]; rfl, hprod, by rw [List.length_map, hlen], hdvd, fun t ht => ?_,
    fun k w hw => ?_, ?_⟩
  · rw [← hcurrent]
    exact hdefinitions _ _ _ (hlabels t ht)
  · rw [List.getElem?_map] at hw
    obtain ⟨w', hw', rfl⟩ := Option.map_eq_some_iff.mp hw
    rw [← hcurrent, hfinal.order]
    exact hfinal.word (hwrites.word hw')
  -- Later lines only add to a section, and the words are in front of all that they add.
  · rintro mid line' rest rfl
    obtain ⟨out₂, out₃, hmid, hline', hgrows, hnext⟩ := Environment.lines_later hpost
    refine ⟨out₂.value, out₃.value, ?_, ?_, fun k hk => ?_⟩
    · rw [Environment.lines_append]
      exact .bind (.ofOk hpre) (.bind (.ofOk hline) (.ofOk hmid))
    · rw [List.length_append, List.length_cons]
      push_cast
      rw [← Int.add_assoc, ← Int.add_assoc, Int.add_right_comm (1 + _)]
      exact .ofOk hline'
    · by_contra hlt
      have hend := hwrites.offset
      have hle' := hgrows.offset_le env₁.current
      rw [hcurrent] at hlt hend hle'
      exact hk (hnext.byte?_eq (by omega))

def beforeLabels : List String := ["ready: .byte 1"]

def afterLabels : List String := ["j loop", ".data", "table: .word loop, 5"]

theorem labels_point_at_words_loop : ∃ r o n,
    assembleLines {} "a.s" (beforeLabels ++ "main: loop: la $t0, table" :: afterLabels) = .ok r ∧
    4 ∣ o ∧ r.value.Defines "loop" .label (.relative n (Int64.ofNat o)) ∧
    (r.value.wordIn? r.value.order n o).isSome := by
  -- Assembling and reading the line are decided, and the rest is the theorem at that line.
  have hrun : (assembleLines {} "a.s" (beforeLabels ++ "main: loop: la $t0, table" ::
      afterLabels)).toOption.any fun r => decide (errorCount r.diagnostics = 0) := by
    decide +kernel
  have hline : (Statement.parse (tokenizeLine "a.s" (1 + (beforeLabels.length : Int))
      "main: loop: la $t0, table").value).value.2 = true := by
    decide +kernel
  have hstatement : (Statement.parse (tokenizeLine "a.s" (1 + (beforeLabels.length : Int))
      "main: loop: la $t0, table").value).value.1.labels.any (·.text == "loop") ∧
      (Statement.parse (tokenizeLine "a.s" (1 + (beforeLabels.length : Int))
        "main: loop: la $t0, table").value).value.1.body.any fun b =>
          b.isInstruction && (Settings.encoder {}).wordCount b == 2 := by
    decide +kernel
  cases hr : assembleLines {} "a.s" (beforeLabels ++ "main: loop: la $t0, table" :: afterLabels) with
  | error e =>
    rw [hr] at hrun
    cases hrun
  | ok r =>
    rw [hr] at hrun
    obtain ⟨hlabels, hbody⟩ := hstatement
    obtain ⟨t, ht, htext⟩ := List.any_eq_true.mp hlabels
    obtain ⟨b, hb, hinstruction⟩ := (Option.any_eq_true _ _).mp hbody
    rw [Bool.and_eq_true, beq_iff_eq] at hinstruction
    obtain ⟨env, env₁, o, words, -, -, -, -, hlen, hdvd, hdefined, hwords, -⟩ :=
      labels_point_at_words hr (by simpa [Except.toOption] using hrun) (Prod.ext rfl hline) hb
        (.inl hinstruction.1)
    have hfirst : ∃ w, words[0]? = some w :=
      ⟨_, List.getElem?_eq_getElem (by omega)⟩
    obtain ⟨w, hw⟩ := hfirst
    have hword := hwords 0 w hw
    rw [Nat.mul_zero, Nat.add_zero] at hword
    refine ⟨r, o, env.current, rfl, hdvd, ?_, by rw [hword]; rfl⟩
    rw [← beq_iff_eq.mp htext]
    exact hdefined t ht

end MipsToolchain
