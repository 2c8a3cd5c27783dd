import MipsToolchain.Proofs.Assembly.Labels
import MipsToolchain.Proofs.Assembly.Symbols

namespace MipsToolchain

open Diagnostic Guarded MipsToolchain.Module EncodedWord

/-- An expression that a statement is assembled from, with the first of its words and how many of them
are about it. -/
inductive StatementBody.HasOperand (enc : Encoder) (b : StatementBody) (e : Expr) : Nat → Nat → Prop
  | word {k : Nat} {arg : List Token} : b.isDirective → b.name = ".word" → b.args[k]? = some arg →
      (Expr.parse arg b.head.location).value = some e → HasOperand enc b e k 1
  | instruction {m : Mnemonic} {q : ParsedInstruction} {o : SourceOperand} : b.isInstruction →
      (enc.recognise b.head).value = some m → (Encoder.parse m b.head b.args).value = some q →
      o ∈ q.operands → o.form.expr? = some e → HasOperand enc b e 0 m.count

namespace Environment

/-- The statements of a text, each with the state in which its body is assembled. -/
inductive Reaches (enc : Encoder) (file : String) :
    Int → List String → Environment → StatementBody → Environment → Prop
  | here {number : Int} {text : String} {rest : List String} {env env' : Environment}
      {s : Statement} {b : StatementBody} :
      (Statement.parse (tokenizeLine file number text).value).value = (s, true) →
      s.body = some b → (env.prepare s).Gives env' →
      Reaches enc file number (text :: rest) env b env'
  | later {number : Int} {text : String} {rest : List String} {env env₁ env' : Environment}
      {b : StatementBody} : (env.line enc file number text).Gives env₁ →
      Reaches enc file (number + 1) rest env₁ b env' →
      Reaches enc file number (text :: rest) env b env'

/-- Where a reference comes from: an expression of a statement has a value that is not a number, and
the reference is about that value in one of the words of the expression. -/
structure Records (enc : Encoder) (env : Environment) (b : StatementBody) (e : Expr) (v : ExprValue)
    (r : Reference) : Prop where
  relocatable : v.isRelocatable
  symbol : r.symbol = v.target
  addend : r.addend = v.number
  operand : ∃ first count k, b.HasOperand enc e first count ∧ first ≤ k ∧ k < first + count ∧
    (e.eval ⟨env.resolve, env.wordPlace first⟩).Gives (some v) ∧ r.location = env.wordPlace k

variable {enc : Encoder} {env env' : Environment} {b : StatementBody} {ws : List EncodedWord}
  {w : EncodedWord} {r : Reference} {k : Nat}

theorem wellEncoded_dataWords {n : Name} {o k : Nat} {args : List (List Token)}
    (h : List.Forall₂ (fun arg w =>
      ∃ v, w = dataWord (.relative n (Int64.ofNat (o + 4 * arg.2))) v) (args.zipIdx k) ws) :
    WellEncoded (.relative n (Int64.ofNat (o + 4 * k))) ws := by
  induction args generalizing k ws with
  | nil =>
    cases h
    trivial
  | cons arg rest ih =>
    cases h with
    | cons hw hws =>
      obtain ⟨v, rfl⟩ := hw
      obtain ⟨hfits, -⟩ := wellEncoded_dataWord (.relative n (Int64.ofNat (o + 4 * k))) v
      refine ⟨hfits, fun r hr hk => ?_, ?_⟩
      · unfold dataWord at hr
        split at hr <;> cases hr
        cases hk
      · rw [add_four_relative, Nat.add_assoc, ← Nat.mul_succ]
        exact ih hws

theorem Encodes.wellEncoded (h : Encodes enc env b ws) : WellEncoded env.location ws := by
  cases h with
  | instruction _ hm hq hws =>
    obtain ⟨ds, hws⟩ := hws
    have hknown : Mnemonic.Known _ := Encoder.mnemonic_parse hq ▸ Encoder.known_recognise hm
    exact Encoder.wellEncoded_encode hknown _ hws
  | words _ _ hws =>
    refine wellEncoded_dataWords (hws.imp ?_)
    rintro arg w ⟨e, v, -, -, hw⟩
    exact ⟨v, hw⟩

theorem Encodes.records (h : Encodes enc env b ws) (hw : ws[k]? = some w)
    (hr : w.reference = some r) : ∃ e v, Records enc env b e v r := by
  have hloc : r.location = env.wordPlace k := (h.wellEncoded.fitsAt hw r hr).1
  cases h with
  | @instruction m q _ hi hm hq hws =>
    obtain ⟨ds, hws⟩ := hws
    have hmem := List.mem_of_getElem? hw
    obtain ⟨v, ⟨o, ho, e, he, hv⟩, hrel, hsymbol, haddend⟩ :=
      Encoder.evaluates_encode _ hws w hmem r hr
    have hlen := Encoder.length_encode _ _ _ _ hws
    rw [Encoder.mnemonic_parse hq] at hlen
    have hk : k < 0 + m.count := by
      rw [Nat.zero_add, ← hlen]
      exact (List.getElem?_eq_some_iff.mp hw).1
    exact ⟨e, v, hrel, hsymbol, haddend, 0, _, k, .instruction hi hm hq ho he, Nat.zero_le k, hk,
      hv, hloc⟩
  | words hd hname hws =>
    obtain ⟨hk, hget⟩ := List.getElem?_eq_some_iff.mp hw
    have hk' : k < b.args.zipIdx.length := hws.length_eq ▸ hk
    obtain ⟨e, v, he, hv, hword⟩ := hws.get hk' hk
    simp only [List.get_eq_getElem, List.getElem_zipIdx, Nat.zero_add] at he hv hword
    rw [hget] at hword
    rw [hword, dataWord] at hr
    split at hr
    · next hrel =>
      cases hr
      have harg := List.getElem?_eq_getElem (show k < b.args.length by simpa using hk')
      exact ⟨e, v, hrel, rfl, rfl, k, 1, k, .word hd hname harg he, Nat.le_refl k,
        Nat.lt_succ_self k, hv, hloc⟩
    · cases hr

theorem reaches_append {file : String} {number : Int} (before : List String) {after : List String}
    {text : String} {env₁ : Environment} {s : Statement}
    (h : (lines enc file number before env).Gives env₁)
    (hs : (Statement.parse (tokenizeLine file (number + before.length) text).value).value = (s, true))
    (hb : s.body = some b) (hp : (env₁.prepare s).Gives env') :
    Reaches enc file number (before ++ text :: after) env b env' := by
  induction before generalizing number env with
  | nil =>
    cases h.unique (.pure env)
    rw [List.length_nil, Int.natCast_zero, Int.add_zero] at hs
    exact .here hs hb hp
  | cons line rest ih =>
    obtain ⟨ds, h⟩ := h
    rw [lines] at h
    obtain ⟨q, r, hq, hr, heq⟩ := bind_eq_ok.mp h
    have hnumber : number + 1 + (rest.length : Int) = number + ((line :: rest).length : Int) := by
      rw [List.length_cons]
      omega
    refine .later (.ofOk hq) (ih ⟨r.diagnostics, ?_⟩ (hnumber ▸ hs))
    cases heq
    exact hr

def Leaves (enc : Encoder) (env : Environment) (b : StatementBody) (r : Reference) : Prop :=
  ∃ ws, Encodes enc env b ws ∧ r ∈ ws.filterMap (·.reference)

theorem leaves_body {s : Statement} (hp : ∀ b, s.body = some b → HasTexts b ∧
      (b.isInstruction ∨ b.isDirective ∧ b.name = ".word" →
        (env.module.section? env.current).isSome)) :
    (env.body enc s).Yields fun env' => ∀ r ∈ env'.module.references, r ∈ env.module.references ∨
      ∃ b, s.body = some b ∧ Leaves enc env b r := by
  cases hb : s.body with
  | none =>
    rw [body, hb]
    exact .pure fun r => .inl
  | some b =>
    obtain ⟨htexts, hpresent⟩ := hp b hb
    by_cases hkind : b.isInstruction ∨ b.isDirective ∧ b.name = ".word"
    · refine .mono (body_yields hb hkind (hpresent hkind)) fun env' ⟨ws, hstore, hws, _⟩ r hr => ?_
      rw [(writes_storeWords hstore).references, List.mem_append] at hr
      exact hr.imp_right fun hr => ⟨b, rfl, ws, hws, hr⟩
    · obtain ⟨hi, hw⟩ := not_or.mp hkind
      rw [body, hb]
      dsimp only
      split
      · next hd =>
        refine .ofEnsures (.mono (moves_plainDirective htexts fun h => hw ⟨hd, h⟩) fun env' h r hr => ?_)
        exact .inl (h.references ▸ hr)
      · exact .pure fun r => .inl

theorem leaves_line (enc : Encoder) (file : String) (number : Int) (text : String)
    (rest : List String) (env : Environment) :
    (env.line enc file number text).Yields fun env' => ∀ r ∈ env'.module.references,
      r ∈ env.module.references ∨
        ∃ b env₁, Reaches enc file number (text :: rest) env b env₁ ∧ Leaves enc env₁ b r := by
  unfold line
  refine .bind fun tokens ht _ => ?_
  cases liftReported_eq_ok.mp ht
  refine .bind fun x hx _ => ?_
  cases liftReported_eq_ok.mp hx
  rcases hs : (Statement.parse (tokenizeLine file number text).value).value with ⟨s, ok⟩
  cases ok with
  | false => exact .pure fun r => .inl
  | true =>
    change (env.statement enc s).Yields _
    rw [statement_eq]
    refine .bind fun q hq he => ?_
    have hreadable : ∀ t ∈ (tokenizeLine file number text).value.tokens, t.Readable := fun t =>
      readable_of_mem_tokenizeLine
    have hl := Statement.zeroFree_labels hs hreadable
    obtain ⟨hmoves, -, -⟩ := prepare_spec env hl q hq
    obtain ⟨-, hpresent⟩ := prepare_yields env hl q hq he
    refine .mono (leaves_body fun b hb => ⟨Statement.hasTexts_parse hs hb hreadable, fun hkind => ?_⟩)
      fun env' hr r hmem => ?_
    · refine hpresent b hb ?_
      rw [alignmentOf_of_words hkind]
      exact Nat.zero_lt_two
    · rcases hr r hmem with hold | ⟨b, hb, hleaves⟩
      · exact .inl (hmoves.references ▸ hold)
      · exact .inr ⟨b, q.value, .here hs hb (.ofOk hq), hleaves⟩

theorem leaves_lines (enc : Encoder) (file : String) (number : Int) (texts : List String)
    (env : Environment) : (lines enc file number texts env).Yields fun env' =>
      ∀ r ∈ env'.module.references, r ∈ env.module.references ∨
        ∃ b env₁, Reaches enc file number texts env b env₁ ∧ Leaves enc env₁ b r := by
  induction texts generalizing number env with
  | nil => exact .pure fun r => .inl
  | cons text rest ih =>
    rw [lines]
    refine .bind fun q hq he => .mono (ih (number + 1) q.value) fun env' hlater r hr => ?_
    rcases hlater r hr with hr | ⟨b, env₁, hreaches, hleaves⟩
    · exact leaves_line enc file number text rest env q hq he r hr
    · exact .inr ⟨b, env₁, .later (.ofOk hq) hreaches, hleaves⟩

theorem Reaches.stores {file : String} {number : Int} {texts : List String} {env₁ : Environment}
    (h : Reaches enc file number texts env b env₁)
    (hkind : b.isInstruction ∨ b.isDirective ∧ b.name = ".word") :
    (lines enc file number texts env).Yields fun env' => Moves env env₁ ∧ ∃ ws env₂,
      Encodes enc env₁ b ws ∧ storeWords true ws env₁ = .ok env₂ ∧ Moves env₂ env' := by
  induction h with
  | here hs hb hprepare =>
    rw [lines]
    refine .andThen (line_encodes hs hb hkind) ?_
    rintro env₂ ⟨env₁', ws, hprepare', -, -, -, hstore, hws, -⟩
    cases hprepare.unique hprepare'
    have hl := Statement.zeroFree_labels hs fun t => readable_of_mem_tokenizeLine
    obtain ⟨ds, hprepare⟩ := hprepare
    refine .ofEnsures (.mono (moves_lines enc file _ _ env₂) fun env' hlater => ?_)
    exact ⟨(prepare_spec _ hl _ hprepare).1.moves, ws, env₂, hws, hstore, hlater⟩
  | later hline _ ih =>
    rw [lines]
    refine .bind fun q hq _ => ?_
    cases hline.unique (.ofOk hq)
    refine .mono (ih hkind) fun env' hlater => ⟨?_, hlater.2⟩
    exact MovesBy.trans (moves_line _ enc file _ _ q hq) hlater.1

structure LeadsTo (env : Environment) (m : Module) : Prop where
  sound : env.Sound
  grows : env.module.Grows m
  definitions : KeepsDefinitions env.module m

/-- Words that are in a module at the end that its current section had in a state. -/
def Keeps (env : Environment) (ws : List EncodedWord) (m : Module) : Prop :=
  ∀ k w, ws[k]? = some w →
    m.wordIn? m.order env.current (env.module.offset env.current + 4 * k) = some w.value ∧
    ∀ r, w.reference = some r → r ∈ m.references

theorem keeps_of_stores {m : Module} (h : storeWords true ws env = .ok env')
    (hg : env'.module.Grows m) : env.Keeps ws m := by
  have hwrites := writes_storeWords h
  intro k w hw
  refine ⟨?_, fun r hr => ?_⟩
  · rw [hg.order]
    exact hg.word (hwrites.word hw)
  · obtain ⟨rs, hrs, -⟩ := hg.references
    have hmem : r ∈ ws.filterMap (·.reference) :=
      List.mem_filterMap.mpr ⟨w, List.mem_of_getElem? hw, hr⟩
    rw [hrs, hwrites.references, if_pos rfl]
    simp [hmem]

end Environment

section Lines

variable {s : Settings} {name : String} {text : List String} {r : Reported Module}
  {env : Environment} {b : StatementBody}

def TextReaches (s : Settings) (name : String) (text : List String) (b : StatementBody)
    (env : Environment) : Prop :=
  Environment.Reaches s.encoder name 1 text (.initial { name, order := s.order }) b env

theorem assembleLines_stores (h : assembleLines s name text = .ok r)
    (he : errorCount r.diagnostics = 0) (hb : TextReaches s name text b env)
    (hkind : b.isInstruction ∨ b.isDirective ∧ b.name = ".word") :
    env.LeadsTo r.value ∧ ∃ ws, env.Encodes s.encoder b ws ∧ env.Keeps ws r.value := by
  obtain ⟨out, hout, hle, hkeeps, hsymbols⟩ := assembleLines_eq_ok h
  obtain ⟨hearlier, ws, env₂, hws, hstore, hlater⟩ := hb.stores hkind out hout (by omega)
  have hgrows : env₂.module.Grows r.value :=
    hlater.advances.grows.trans (.of_keepsContents hkeeps)
  have hwords : env.module.Grows env₂.module :=
    (Environment.advances_storeWords hstore hws.wellEncoded).grows
  refine ⟨⟨hearlier.sound (Environment.sound_initial name s.order), hwords.trans hgrows, ?_⟩, ws,
    hws, Environment.keeps_of_stores hstore hgrows⟩
  exact ((Environment.keeps_storeWords hstore).1.trans hlater.keepsDefinitions).trans
    (.of_symbols hsymbols)

/-- Every reference of a module that is assembled without an error was left by a statement. -/
theorem assembleLines_leaves (h : assembleLines s name text = .ok r)
    (he : errorCount r.diagnostics = 0) {q : Reference} (hq : q ∈ r.value.references) :
    ∃ b env, TextReaches s name text b env ∧ Environment.Leaves s.encoder env b q := by
  obtain ⟨out, hout, hle, hkeeps, -⟩ := assembleLines_eq_ok h
  rw [hkeeps.references] at hq
  rcases Environment.leaves_lines _ _ _ _ _ out hout (by omega) q hq with hq | hleaves
  · cases hq
  · exact hleaves

end Lines

end MipsToolchain
