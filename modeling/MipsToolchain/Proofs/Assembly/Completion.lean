import MipsToolchain.Proofs.Assembly.Labels
import MipsToolchain.Proofs.Encoding.Completion
import MipsToolchain.Proofs.Expr.Arena
import MipsToolchain.Proofs.Object.Openness
import MipsToolchain.Proofs.Token.Positions

namespace MipsToolchain

open Diagnostic Guarded MipsToolchain.Module

theorem Expr.completes_evaluation (tokens : List Token) (place : Source.Location)
    (ctx : EvalContext) :
    (do
      match ← Expr.parse tokens place with
      | some e => e.eval ctx
      | none => pure none : Guarded (Option ExprValue)).Completes fun _ => True := by
  refine .reported ?_
  split
  · next e _ =>
    obtain ⟨r, hr⟩ := e.eval_total ctx
    exact ⟨r, hr, trivial⟩
  · exact .pure trivial

namespace Environment

/-- A state from which assembling can go on. -/
def Open (env : Environment) : Prop := env.module.Open

namespace Open

variable {env : Environment}

theorem edit {α : Type} {e : Edit α} (h : env.module.Accepts e) :
    ∃ x, env.edit e = .ok x ∧ x.2.Open := by
  obtain ⟨a, m, hm, hopen⟩ := h
  exact ⟨(a, { env with module := m }), by rw [Environment.edit, hm], hopen⟩

theorem apply {α : Type} {e : Edit α} (h : env.module.Accepts e) :
    ∃ env', env.apply e = .ok env' ∧ env'.Open := by
  obtain ⟨x, hx, hopen⟩ := edit h
  exact ⟨x.2, except_map_eq_ok.mpr ⟨x, hx, rfl⟩, hopen⟩

theorem completes_apply {α : Type} {e : Edit α} (h : env.module.Accepts e) :
    (liftM (env.apply e) : Guarded Environment).Completes Open :=
  .ofExcept (apply h)

theorem completes_switch (h : env.Open) (n : Name) (flags : SectionFlags) :
    (liftM (env.switch n flags) : Guarded Environment).Completes Open := by
  obtain ⟨env', henv, hopen⟩ := apply (h.accepts_addSection n flags)
  exact .ofExcept ⟨_, except_map_eq_ok.mpr ⟨env', henv, rfl⟩, hopen⟩

theorem completes_defineSymbol (h : env.Open) (t : Token) (type : SymbolType) (a : Address) :
    (env.defineSymbol t type a).Completes Open := by
  unfold defineSymbol
  refine .andThen (.ofExcept (edit (h.accepts_define t.text type a t.location))) ?_
  rintro ⟨defined, env'⟩ hopen
  dsimp only
  split
  · exact .pure hopen
  · exact .reported (.pure hopen)

theorem completes_defineLabels (h : env.Open) (ts : List Token) :
    (defineLabels ts env).Completes Open := by
  induction ts generalizing env with
  | nil => exact .pure h
  | cons t ts ih =>
    rw [defineLabels]
    refine .reported ?_
    split
    · exact .andThen (h.completes_defineSymbol t .label _) fun env' h' => ih h'
    · exact ih h

theorem completes_switchDirective (h : env.Open) (b : StatementBody) (s : StandardSection) :
    (env.switchDirective b s).Completes Open := by
  unfold switchDirective
  refine .reported ?_
  split
  · exact h.completes_switch s.name s.flags
  · exact .pure h

/-- An argument is there if the number of arguments was checked. -/
theorem completes_argument {b : StatementBody} {k : Nat} (h : k < b.args.length) :
    (liftM (b.argument k) : Guarded (List Token)).Completes fun _ => True :=
  .ofExcept ⟨b.args[k], StatementBody.argument_eq_ok.mpr (List.getElem?_eq_getElem h), trivial⟩

theorem completes_sectionDirective (h : env.Open) (b : StatementBody) :
    (env.sectionDirective b).Completes Open := by
  unfold sectionDirective
  refine .reported ?_
  split
  · next hcount =>
    have hlen := StatementBody.le_length_of_checkCount hcount
    refine .andThen (completes_argument hlen) fun _ _ => .reported ?_
    split
    · exact .pure h
    · split
      · refine .andThen (completes_argument (by omega)) fun _ _ => .reported ?_
        split
        · exact .pure h
        · exact h.completes_switch _ _
      · exact h.completes_switch _ _
  · exact .pure h

/-- The bindings that a conflict is reported with have names, as those of all symbols do. -/
theorem completes_declareBinding (h : env.Open) (t : Token) {binding : Binding}
    (hb : binding = .global ∨ binding = .weak) : (env.declareBinding t binding).Completes Open := by
  have hassigned : binding.isAssigned := by rcases hb with rfl | rfl <;> rfl
  have hexported : binding ≠ .internal := by rcases hb with rfl | rfl <;> nofun
  have hname : ∀ b : Binding, b.isAssigned → ∃ s, b.name = .ok s ∧ True := by
    intro b hb
    cases b with
    | unassigned => cases hb
    | internal | global | weak => exact ⟨_, rfl, trivial⟩
  have hcurrent : (((env.module.symbol? t.text).map Symbol.binding).getD .internal).isAssigned := by
    cases hs : env.module.symbol? t.text with
    | none => rfl
    | some s => exact h.assigned s (List.mem_of_find?_eq_some hs)
  unfold declareBinding
  dsimp only
  split
  · refine .andThen (.ofExcept (hname _ hcurrent)) fun _ _ => ?_
    exact .andThen (.ofExcept (hname _ hassigned)) fun _ _ => .reported (.pure h)
  · obtain ⟨m, hm, hopen⟩ := h.accepts_declare t.text hassigned hexported
    have hedit : env.edit (Module.declare t.text binding) = .ok (true, { env with module := m }) := by
      rw [Environment.edit, hm]
    exact .andThen (p := (· = (true, { env with module := m }))) (.ofExcept ⟨_, hedit, rfl⟩)
      fun x hx => by
        rw [hx]
        exact .pure hopen

theorem completes_bindingArguments (h : env.Open) (b : StatementBody) {binding : Binding}
    (hb : binding = .global ∨ binding = .weak) (args : List (List Token)) :
    (bindingArguments b binding args env).Completes Open := by
  induction args generalizing env with
  | nil => exact .pure h
  | cons arg rest ih =>
    rw [bindingArguments]
    refine .reported ?_
    split
    · exact ih h
    · next t _ =>
      refine .reported ?_
      split
      · exact .andThen (h.completes_declareBinding t hb) fun env' h' => ih h'
      · exact ih h

theorem completes_bindingDirective (h : env.Open) (b : StatementBody) {binding : Binding}
    (hb : binding = .global ∨ binding = .weak) : (env.bindingDirective b binding).Completes Open := by
  unfold bindingDirective
  refine .reported ?_
  split
  · exact h.completes_bindingArguments b hb b.args
  · exact .pure h

theorem completes_evaluate (env : Environment) (b : StatementBody) (arg : List Token) :
    (b.evaluate env arg).Completes fun _ => True :=
  Expr.completes_evaluation arg b.head.location env.context

theorem completes_constant (env : Environment) (b : StatementBody) (arg : List Token) :
    (b.constant env arg).Completes fun _ => True := by
  unfold StatementBody.constant
  refine .andThen (completes_evaluate env b arg) fun v _ => ?_
  split
  · exact .pure trivial
  · split
    · exact .reported (.pure trivial)
    · exact .pure trivial

theorem completes_defineConstant (h : env.Open) {b : StatementBody} (hlen : 2 ≤ b.args.length) :
    (env.defineConstant b).Completes Open := by
  unfold defineConstant
  refine .andThen (completes_argument (by omega)) fun _ _ => .reported ?_
  split
  · exact .pure h
  · refine .reported ?_
    split
    · refine .andThen (completes_argument hlen) fun valueArg _ => ?_
      refine .andThen (completes_evaluate env b valueArg) fun v _ => ?_
      split
      · exact .pure h
      · split
        · exact .reported (.pure h)
        · exact h.completes_defineSymbol _ _ _
    · exact .pure h

theorem completes_equateDirective (h : env.Open) (b : StatementBody) :
    (env.equateDirective b).Completes Open := by
  unfold equateDirective
  refine .reported ?_
  split
  · next hcount => exact h.completes_defineConstant (StatementBody.le_length_of_checkCount hcount)
  · exact .pure h

theorem completes_setDirective (h : env.Open) (b : StatementBody) :
    (env.setDirective b).Completes Open := by
  unfold setDirective
  split
  · next hlen => exact h.completes_defineConstant hlen.ge
  · refine .reported ?_
    split
    · next hcount =>
      have hlen := StatementBody.le_length_of_checkCount hcount
      refine .andThen (completes_argument hlen) fun _ _ => .reported ?_
      split
      · exact .pure h
      · split
        all_goals first
          | exact .pure h
          | exact .reported (.pure h)
    · exact .pure h

theorem completes_dataValue (h : env.Open) (b : StatementBody) (size : DataSize) (arg : List Token) :
    (env.dataValue b size arg).Completes fun x => x.2.Open := by
  unfold dataValue
  refine .andThen (completes_evaluate env b arg) fun v _ => ?_
  split
  · exact .pure h
  · split
    · split
      · exact .andThen (completes_apply (h.accepts_track _)) fun env' h' => .pure h'
      · exact .reported (.pure h)
    · dsimp only
      split
      · exact .pure h
      · exact .reported (.pure h)

theorem completes_dataArguments (h : env.Open) (b : StatementBody) (size : DataSize)
    (args : List (List Token)) : (dataArguments b size args env).Completes Open := by
  induction args generalizing env with
  | nil => exact .pure h
  | cons arg rest ih =>
    refine .andThen (h.completes_dataValue b size arg) fun ⟨v, env₁⟩ h₁ => ?_
    refine .andThen (completes_apply (Module.Open.accepts_append h₁ _ _)) fun env₂ h₂ => ?_
    exact ih h₂

theorem completes_dataDirective (h : env.Open) (b : StatementBody) (size : DataSize) :
    (env.dataDirective b size).Completes Open := by
  unfold dataDirective
  refine .reported ?_
  split
  · refine .reported ?_
    split
    · exact h.completes_dataArguments b size b.args
    · exact .pure h
  · exact .pure h

theorem completes_stringArguments (h : env.Open) (b : StatementBody) (terminated : Bool)
    (args : List (List Token)) : (stringArguments b terminated args env).Completes Open := by
  induction args generalizing env with
  | nil => exact .pure h
  | cons arg rest ih =>
    rw [stringArguments]
    refine .reported ?_
    split
    · exact ih h
    · exact .andThen (completes_apply (h.accepts_append _ _)) fun env' h' => ih h'

theorem completes_stringDirective (h : env.Open) (b : StatementBody) (terminated : Bool) :
    (env.stringDirective b terminated).Completes Open := by
  unfold stringDirective
  refine .reported ?_
  split
  · refine .reported ?_
    split
    · exact h.completes_stringArguments b terminated b.args
    · exact .pure h
  · exact .pure h

theorem completes_spaceDirective (h : env.Open) (b : StatementBody) :
    (env.spaceDirective b).Completes Open := by
  unfold spaceDirective
  refine .reported ?_
  split
  · next hcount =>
    have hlen := StatementBody.le_length_of_checkCount hcount
    refine .andThen (completes_argument hlen) fun arg _ => ?_
    refine .andThen (completes_constant env b arg) fun n _ => ?_
    split
    · exact .pure h
    · next n =>
      split
      · exact .reported (.pure h)
      · split
        · exact .reported (.pure h)
        · next hneg hroom =>
          have hpos : 0 ≤ n.toInt := by
            rw [Int64.lt_iff_toInt_lt] at hneg
            simpa using hneg
          refine completes_apply (h.accepts_reserve env.current hpos ?_)
          have hmax : (Module.maxSectionSize : Int) ≤ addressSpace := by decide
          omega
  · exact .pure h

theorem completes_alignDirective (h : env.Open) (b : StatementBody) :
    (env.alignDirective b).Completes Open := by
  unfold alignDirective
  refine .reported ?_
  split
  · next hcount =>
    have hlen := StatementBody.le_length_of_checkCount hcount
    refine .andThen (completes_argument hlen) fun arg _ => ?_
    refine .andThen (completes_constant env b arg) fun n _ => ?_
    split
    · exact .pure h
    · split
      · exact .reported (.pure h)
      · exact completes_apply (h.accepts_align env.current (by omega))
  · exact .pure h

theorem completes_directive (h : env.Open) (b : StatementBody) :
    (env.directive b).Completes Open := by
  unfold directive
  split
  · exact h.completes_sectionDirective b
  · exact h.completes_bindingDirective b (.inl rfl)
  · exact h.completes_bindingDirective b (.inl rfl)
  · exact h.completes_bindingDirective b (.inl rfl)
  · exact h.completes_bindingDirective b (.inr rfl)
  · exact h.completes_dataDirective b .word
  · exact h.completes_dataDirective b .half
  · exact h.completes_dataDirective b .byte
  · exact h.completes_stringDirective b false
  · exact h.completes_stringDirective b true
  · exact h.completes_spaceDirective b
  · exact h.completes_alignDirective b
  · exact h.completes_equateDirective b
  · exact h.completes_setDirective b
  · split
    · exact h.completes_switchDirective b _
    · exact .reported (.pure h)

theorem storeWords_isOk (h : env.Open) (tracked : Bool) (ws : List EncodedWord) :
    ∃ env', storeWords tracked ws env = .ok env' ∧ env'.Open := by
  induction ws generalizing env with
  | nil => exact ⟨env, rfl, h⟩
  | cons w ws ih =>
    have htrack : ∃ env₁, trackWord tracked w env = .ok env₁ ∧ env₁.Open := by
      unfold trackWord
      split
      · split
        · exact apply (h.accepts_track _)
        · exact ⟨env, rfl, h⟩
      · exact ⟨env, rfl, h⟩
    obtain ⟨env₁, h₁, hopen₁⟩ := htrack
    obtain ⟨env₂, h₂, hopen₂⟩ := apply (Module.Open.accepts_appendWord hopen₁ env₁.current w.value)
    obtain ⟨env', h', hopen'⟩ := ih hopen₂
    refine ⟨env', ?_, hopen'⟩
    rw [storeWords_cons]
    exact except_bind_eq_ok.mpr ⟨env₁, h₁, except_bind_eq_ok.mpr ⟨env₂, h₂, h'⟩⟩

theorem completes_instruction (h : env.Open) (enc : Encoder) (b : StatementBody) :
    (env.instruction enc b).Completes Open := by
  unfold instruction
  extract_lets assembled
  have hassembled : (assembled ()).Completes Open := by
    refine .reported ?_
    split
    · exact .pure h
    · next m hm =>
      have hknown : m.Known := Encoder.known_recognise hm
      refine .reported ?_
      split
      · have hsize := Mnemonic.Known.size_le hknown
        refine completes_apply (h.accepts_reserve env.current (Int.natCast_nonneg _) ?_)
        have hmax : (12 : Int) ≤ addressSpace := by decide
        omega
      · next p hp =>
        have hp' : p.mnemonic.Known := Encoder.mnemonic_parse hp ▸ hknown
        refine .reported ?_
        refine .andThen (enc.encode_completes _ hp' (Encoder.length_operands_parse hp)) fun x _ => ?_
        exact .ofExcept (h.storeWords_isOk x.2 x.1)
  split
  · exact hassembled
  · exact .reported hassembled

theorem completes_prepare (h : env.Open) (s : Statement) : (env.prepare s).Completes Open := by
  have hboundary : (s.body.map alignmentOf).getD 0 ≤ maxAlignment := by
    have hle : ∀ b, alignmentOf b ≤ maxAlignment := by
      intro b
      unfold alignmentOf
      split
      · decide
      · split <;> decide
    cases s.body with
    | none => decide
    | some b => exact hle b
  unfold prepare
  dsimp only
  split
  · refine .andThen (completes_apply (h.accepts_align env.current hboundary)) fun env' h' => ?_
    exact h'.completes_defineLabels s.labels
  · rw [pure_bind]
    exact h.completes_defineLabels s.labels

theorem completes_statement (h : env.Open) (enc : Encoder) (s : Statement) :
    (env.statement enc s).Completes Open := by
  rw [statement_eq]
  refine .andThen (h.completes_prepare s) fun env' h' => ?_
  unfold body
  split
  · exact .pure h'
  · split
    · exact h'.completes_directive _
    · split
      · exact h'.completes_instruction enc _
      · exact .pure h'

theorem completes_line (h : env.Open) (enc : Encoder) (file : String) (number : Int)
    (text : String) : (env.line enc file number text).Completes Open := by
  unfold line
  refine .reported (.reported ?_)
  dsimp only
  split
  · exact h.completes_statement enc _
  · exact .pure h

theorem completes_lines (h : env.Open) (enc : Encoder) (file : String) (number : Int)
    (texts : List String) : (lines enc file number texts env).Completes Open := by
  induction texts generalizing number env with
  | nil => exact .pure h
  | cons text rest ih =>
    exact .andThen (h.completes_line enc file number text) fun env' h' => ih h' (number + 1)

end Open

end Environment

theorem ExprArena.evaluate_isOk (tokens : List Token) (place : Source.Location)
    (ctx : EvalContext) :
    ∃ r, ExprArena.evaluate tokens place ctx = .ok r ∧
      (do
        match ← Expr.parse tokens place with
        | some e => e.eval ctx
        | none => pure none : Guarded (Option ExprValue)) = .ok r := by
  obtain ⟨r, hr, -⟩ := Expr.completes_evaluation tokens place ctx
  exact ⟨r, (ExprArena.evaluate_eq tokens place ctx).trans hr, hr⟩

/-- Assembling never stops at a fault. Whatever the settings are and whatever the lines say, there
is a module at the end, which is finalized. On the way, a scan by position never looks beyond a line,
the part of a literal that is shown for an unknown escape lies within the literal, an expression
that is built in place never refers to a node that is not there, and every instruction takes the
words that were reserved for it. -/
theorem assembleLines_completes (s : Settings) (name : String) (text : List String) :
    (assembleLines s name text).Completes (fun m => m.finalized) ∧
      (∀ line : String, LineScan.scan line = .ok (Lexeme.scan line)) ∧
      (∀ literal : String, ∀ k ∈ (Literal.unquote literal).2, k + 2 ≤ literal.toList.length) ∧
      (∀ (tokens : List Token) (place : Source.Location) (ctx : EvalContext),
        ∃ r, ExprArena.evaluate tokens place ctx = .ok r ∧
          (do
            match ← Expr.parse tokens place with
            | some e => e.eval ctx
            | none => pure none : Guarded (Option ExprValue)) = .ok r) ∧
      ∀ (t : Token) (args : List (List Token)) (m : Mnemonic) (p : ParsedInstruction)
        (ctx : EvalContext), (s.encoder.recognise t).value = some m →
          (Encoder.parse m t args).value = some p →
            (s.encoder.encode ctx p).Completes fun x => x.1.length = m.count := by
  refine ⟨?_, LineScan.scan_eq, Literal.unknown_unquote_le, ExprArena.evaluate_isOk, ?_⟩
  · have hinitial : (Environment.initial { name, order := s.order }).Open :=
      Module.open_new name s.order
    obtain ⟨out, hout, -⟩ := hinitial.completes_lines s.encoder name 1 text
    unfold assembleLines
    rw [hout]
    exact ⟨_, rfl, rfl⟩
  · intro t args m p ctx hm hp
    have hmnemonic := Encoder.mnemonic_parse hp
    have hknown : p.mnemonic.Known := hmnemonic ▸ Encoder.known_recognise hm
    exact hmnemonic ▸ s.encoder.encode_completes ctx hknown (Encoder.length_operands_parse hp)

theorem assembleLines_completes_nop :
    ∃ q, Pseudo.ofName? "nop" = some q ∧
      (({} : Settings).encoder.encode ⟨fun _ => none, .absolute 0⟩ ⟨.pseudo q, []⟩).Completes
        fun x => x.1.length = 1 := by
  let q : Pseudo := ⟨"nop", [], 1, [("sll", [Pseudo.zero, Pseudo.zero, .constant 0])]⟩
  have hq : (({} : Settings).encoder.recognise ⟨"nop", .instruction, .none⟩).value =
      some (.pseudo ⟨"nop", [], 1, [("sll", [Pseudo.zero, Pseudo.zero, .constant 0])]⟩) := by
    decide
  exact ⟨q, by decide, (assembleLines_completes {} "" ["nop"]).2.2.2.2
    ⟨"nop", .instruction, .none⟩ [] (.pseudo q) ⟨.pseudo q, []⟩ _ hq rfl⟩

end MipsToolchain
