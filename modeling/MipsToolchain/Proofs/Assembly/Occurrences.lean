import MipsToolchain.Proofs.Assembly.Origins
import MipsToolchain.Proofs.Encoding.Endings
import MipsToolchain.Proofs.Expr.Occurrences

namespace MipsToolchain

open Diagnostic Guarded MipsToolchain.Module

namespace StatementBody

variable {enc : Encoder} {b : StatementBody} {e : Expr} {first count : Nat}

/-- The form of the words of a statement that is about addresses as a whole. -/
inductive Takes (b : StatementBody) : WordForm → Prop
  | word {w : UInt32} : b.isDirective → b.name = ".word" → Takes b (.single .absolute32 w)
  | load {upper lower : UInt32} : b.isInstruction → b.name = "la" → Takes b (.split upper lower)
  | jump {w : UInt32} : b.isInstruction → b.name = "j" ∨ b.name = "jal" → Takes b (.jump w)

theorem HasOperand.namedIn (h : b.HasOperand enc e first count) {n : String} (hn : n ∈ e.names) :
    ∃ arg ∈ b.args, NamedIn arg n := by
  cases h with
  | word _ _ harg he =>
    exact ⟨_, List.mem_of_getElem? harg, SourceOperand.namedIn_parse he n hn⟩
  | instruction _ _ hq ho he =>
    refine Encoder.namedIn_parse hq _ ho n ?_
    rwa [SourceOperand.names, he]

theorem takes_of_form {m : Mnemonic} (hi : b.isInstruction)
    (hm : (enc.recognise b.head).value = some m) (hb : b.name = "la" ∨ b.name = "j" ∨ b.name = "jal")
    {form : WordForm} (hc : form.count = m.count) (hs : form.Suits m.args.getLast?) :
    b.Takes form := by
  rcases hb with hb | hb
  · rw [Encoder.recognise_load hb hm] at hc hs
    obtain ⟨upper, lower, rfl⟩ := WordForm.eq_split_of_suits hs hc
    exact .load hi hb
  · rw [Encoder.recognise_jump hb hm] at hs
    obtain ⟨w, rfl⟩ := WordForm.eq_jump_of_suits hs
    exact .jump hi hb

end StatementBody

/-- The words of an instruction follow from the one value among its operands. -/
theorem Encoder.form_of_encode {enc : Encoder} {t : Token} {m : Mnemonic}
    {args : List (List Token)} {q : ParsedInstruction} {ctx : EvalContext} {ws : List EncodedWord}
    (hm : (enc.recognise t).value = some m) (hq : (Encoder.parse m t args).value = some q)
    (hws : (enc.encode ctx q).Gives (ws, true)) {o : SourceOperand} (ho : o ∈ q.operands)
    {e : Expr} (he : o.form.expr? = some e) :
    ∃ v, ∃ form : WordForm, (e.eval ctx).Gives (some v) ∧ form.count = m.count ∧
      form.Suits m.args.getLast? ∧
      (v.isRelocatable → form.words ctx.location v = some ws) := by
  -- Only the last operand has an expression, and the form of the words depends on that alone.
  have hends := Encoder.endsIn_of_parse (Encoder.known_recognise hm) hq ho he
  obtain ⟨v, hv⟩ := Encoder.exists_value_of_encode hws ho he
  obtain ⟨form, hc, hsuits, hform⟩ := enc.encode_form hends ctx.location
  rw [Encoder.mnemonic_parse hq] at hc hsuits
  refine ⟨v, form, hv, hc, hsuits, fun hrel => ?_⟩
  obtain ⟨ds, hv⟩ := hv
  obtain ⟨ds', hws⟩ := hws
  obtain ⟨r, hr, hdescribes⟩ := hform ctx v ds rfl hv hrel
  have hvalue : r.value = (ws, true) := by
    rw [hws] at hr
    exact (congrArg Reported.value (Except.ok.inj hr)).symm
  -- A value that is refused would make the instruction wrong.
  cases hwords : form.words ctx.location v with
  | none =>
    rw [hwords] at hdescribes
    obtain ⟨vs, hvs, -⟩ := hdescribes
    cases hvalue.symm.trans hvs
  | some us =>
    rw [hwords] at hdescribes
    exact congrArg (some ·.1) ((congrArg Reported.value hdescribes).symm.trans hvalue)

namespace Environment

variable {enc : Encoder} {env env' : Environment} {b : StatementBody} {ws : List EncodedWord}
  {e : Expr} {first count : Nat}

theorem Reaches.hasTexts {file : String} {number : Int} {texts : List String}
    (h : Reaches enc file number texts env b env') : HasTexts b := by
  induction h with
  | here hs hb _ => exact Statement.hasTexts_parse hs hb fun t => readable_of_mem_tokenizeLine
  | later _ _ ih => exact ih

theorem Encodes.form (h : Encodes enc env b ws) (ho : b.HasOperand enc e first count)
    (hb : b.isInstruction → b.name = "la" ∨ b.name = "j" ∨ b.name = "jal") :
    ∃ v form, (e.eval ⟨env.resolve, env.wordPlace first⟩).Gives (some v) ∧ b.Takes form ∧
      form.count = count ∧
      (v.isRelocatable →
        form.words (env.wordPlace first) v = some ((ws.drop first).take count)) := by
  cases ho with
  | @word _ arg hd hname harg he =>
    cases h with
    | instruction hi =>
      rw [StatementBody.not_isDirective hi] at hd
      cases hd
    | words _ _ hws =>
      have hk : first < b.args.zipIdx.length := by
        simpa using (List.getElem?_eq_some_iff.mp harg).1
      have hk' : first < ws.length := hws.length_eq ▸ hk
      obtain ⟨e', v, he', hv, hword⟩ := hws.get hk hk'
      simp only [List.get_eq_getElem, List.getElem_zipIdx, Nat.zero_add] at he' hv hword
      rw [(List.getElem?_eq_some_iff.mp harg).2, he] at he'
      cases he'
      refine ⟨v, .single .absolute32 0, hv, .word hd hname, rfl, fun hrel => ?_⟩
      rw [List.drop_eq_getElem_cons hk', List.take_succ_cons, List.take_zero, hword, dataWord,
        if_pos hrel]
      rfl
  | @instruction m q o hi hm hq ho he =>
    cases h with
    | words hd =>
      rw [StatementBody.not_isDirective hi] at hd
      cases hd
    | instruction _ hm' hq' hws =>
      cases hm.symm.trans hm'
      cases hq.symm.trans hq'
      obtain ⟨v, form, hv, hc, hsuits, hwords⟩ := Encoder.form_of_encode hm hq hws ho he
      refine ⟨v, form, hv, StatementBody.takes_of_form hi hm (hb hi) hc hsuits, hc, fun hrel => ?_⟩
      have hplace : env.wordPlace 0 = env.location := rfl
      have hwords : form.words env.location v = some ws := hwords hrel
      rw [hplace, List.drop_zero, hwords, List.take_of_length_le]
      rw [WordForm.length_words hwords, hc]

section LeadsTo

variable {m : Module} {n : Name} {a : Address}

theorem LeadsTo.resolve (h : env.LeadsTo m) (hn : env.resolve n = some a) :
    (∃ t, m.symbol? n = some t ∧ t.address = some a) ∨
      m.isSectionName n ∧ a = .relative n 0 := by
  unfold Environment.resolve at hn
  split at hn
  · next t ht =>
    split at hn
    · cases hn
    · obtain ⟨t', ht', -, ha⟩ := h.definitions n t.type a ⟨t, ht, rfl, hn⟩
      exact .inl ⟨t', ht', ha⟩
  · split at hn
    · next hsection =>
      exact .inr ⟨h.grows.sections n hsection, (Option.some.inj hn).symm⟩
    · cases hn

theorem LeadsTo.isSectionName (h : env.LeadsTo m) (hn : env.resolve n = some a)
    (ha : a.isRelocatable) : m.isSectionName a.sectionName :=
  h.grows.sections _ (h.sound.resolve hn ha)

theorem Keeps.word (h : env.Keeps ws m) (hs : m.Sized) {k : Nat} {w : EncodedWord}
    (hw : ws[k]? = some w) :
    m.wordIn? m.order env.current (env.wordPlace k).offset = some w.value := by
  obtain ⟨hword, -⟩ := h k w hw
  have hlt : env.module.offset env.current + 4 * k < 0x8000000000000000 := by
    have hle := le_offset_of_wordIn? hword
    have hsized := hs env.current
    omega
  have hoffset : (env.wordPlace k).offset = env.module.offset env.current + 4 * k :=
    Address.offset_inSection hlt
  rwa [hoffset]

end LeadsTo

end Environment

end MipsToolchain
