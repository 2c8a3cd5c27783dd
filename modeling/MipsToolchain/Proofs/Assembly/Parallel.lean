import MipsToolchain.Proofs.Assembly.Moves
import MipsToolchain.Proofs.Effects
import MipsToolchain.Proofs.Object.Outline

namespace MipsToolchain

open Guarded MipsToolchain.Module

theorem RawText.ofString_inj {s t : String} : ofString s = ofString t ↔ s = t := by
  refine ⟨fun h => String.toByteArray_inj.mp ?_, congrArg ofString⟩
  rw [← String.utf8Encode_toList, ← String.utf8Encode_toList]
  exact congrArg (fun r : RawText => r.bytes.toByteArray) h

theorem not_standard_of_checkSymbolName {t : Token} (h : (checkSymbolName t).value = true) :
    (t.text : Name) ∉ StandardSection.names := by
  intro hmem
  obtain ⟨s, hs, htitle⟩ := List.mem_map.mp hmem
  rw [StandardSection.name, RawText.ofString_inj] at htitle
  have hvalid : isValidSymbolName t.text := by
    by_contra hinvalid
    rw [checkSymbolName, if_neg hinvalid] at h
    cases h
  rw [isValidSymbolName, ← htitle] at hvalid
  revert hvalid
  cases s <;> decide +kernel

/-- Whether a statement that switches to a section by its name switches to a standard one. -/
def StatementBody.NamesStandard (b : StatementBody) : Prop :=
  b.isDirective → b.name = ".section" →
    ∀ t ∈ (b.nameArgument (b.args.headD [])).value, (t.text : Name) ∈ StandardSection.names

instance : DecidablePred StatementBody.NamesStandard := fun b => by
  unfold StatementBody.NamesStandard
  infer_instance

namespace Environment

theorem resolve_eq {env : Environment} (h : env.module.Plain) (n : Name) : env.resolve n =
    if n ∈ StandardSection.names then some (.relative n 0)
    else if env.module.bindingOf n = .weak then none
    else (env.module.definition? n).map (·.2) := by
  have hsection : env.module.isSectionName n = true ↔ n ∈ StandardSection.names := by
    rw [isSectionName, Bool.or_eq_true, decide_eq_true_iff]
    exact ⟨fun hn => hn.elim (h.sections n) id, .inr⟩
  unfold resolve
  by_cases hn : n ∈ StandardSection.names
  · rw [h.symbols n hn, if_pos hn]
    exact if_pos (hsection.mpr hn)
  · rw [if_neg hn, bindingOf, definition?]
    cases env.module.symbol? n with
    | none =>
      dsimp only
      rw [if_neg (mt hsection.mp hn)]
      simp
    | some s => simp [Function.comp_def]

/-- Two states that differ at most in what is mentioned, in what sections contain, and in options
that only concern reports. -/
structure Parallel (env env' : Environment) : Prop where
  outline : env.module.outline = env'.module.outline
  current : env.current = env'.current
  standard : env.current ∈ StandardSection.names
  plain : env.module.Plain
  plain' : env'.module.Plain

namespace Parallel

variable {env env' : Environment} {α β : Type}

theorem order (h : Parallel env env') : env.module.order = env'.module.order :=
  congrArg Outline.order h.outline

theorem offset (h : Parallel env env') (n : Name) : env.module.offset n = env'.module.offset n :=
  congrFun (congrArg Outline.length h.outline) n

theorem bindingOf (h : Parallel env env') (n : Name) :
    env.module.bindingOf n = env'.module.bindingOf n :=
  congrFun (congrArg Outline.binding h.outline) n

theorem flags (h : Parallel env env') : env.flags = env'.flags := by
  rw [flags_eq, flags_eq, h.current]
  exact congrFun (congrArg Outline.flags h.outline) _

theorem location (h : Parallel env env') : env.location = env'.location := by
  rw [Environment.location, Environment.location, h.current, h.offset]

theorem context (h : Parallel env env') : env.context = env'.context := by
  have hresolve : env.resolve = env'.resolve := funext fun n => by
    have hdefinition : env.module.definition? n = env'.module.definition? n :=
      congrFun (congrArg Outline.definition? h.outline) n
    rw [resolve_eq h.plain, resolve_eq h.plain', h.bindingOf, hdefinition]
  rw [Environment.context, Environment.context, hresolve, h.location]

theorem evaluate (h : Parallel env env') (b : StatementBody) (arg : List Token) :
    b.evaluate env arg = b.evaluate env' arg := by
  rw [StatementBody.evaluate, StatementBody.evaluate, h.context]

theorem constant (h : Parallel env env') (b : StatementBody) (arg : List Token) :
    b.constant env arg = b.constant env' arg := by
  rw [StatementBody.constant, StatementBody.constant, h.evaluate]

/-- Steps that act alike lead from parallel states to parallel states. -/
theorem edit (h : Parallel env env') {e : Edit α} {e' : Edit β} {f : Outline → Outline}
    (he : Acts e f) (he' : Acts e' f) {a : α} {b : β} {env₁ env₁' : Environment}
    (ha : env.edit e = .ok (a, env₁)) (hb : env'.edit e' = .ok (b, env₁')) :
    Parallel env₁ env₁' := by
  obtain ⟨m, hm, rfl⟩ := edit_eq_ok ha
  obtain ⟨m', hm', rfl⟩ := edit_eq_ok hb
  obtain ⟨hplain, hf⟩ := he _ _ _ h.plain hm
  obtain ⟨hplain', hf'⟩ := he' _ _ _ h.plain' hm'
  exact ⟨hf.trans ((congrArg f h.outline).trans hf'.symm), h.current, h.standard, hplain, hplain'⟩

theorem of_apply (h : Parallel env env') {e : Edit α} {e' : Edit β} {f : Outline → Outline}
    (he : Acts e f) (he' : Acts e' f) {env₁ env₁' : Environment} (h₁ : env.apply e = .ok env₁)
    (h₁' : env'.apply e' = .ok env₁') : Parallel env₁ env₁' := by
  obtain ⟨⟨a, _⟩, ha, rfl⟩ := except_map_eq_ok.mp h₁
  obtain ⟨⟨b, _⟩, hb, rfl⟩ := except_map_eq_ok.mp h₁'
  exact h.edit he he' ha hb

theorem apply (h : Parallel env env') {e : Edit α} {e' : Edit β} {f : Outline → Outline}
    (he : Acts e f) (he' : Acts e' f) :
    (liftM (env.apply e) : Guarded Environment).Agree (liftM (env'.apply e')) Parallel :=
  .ofExcept fun _ _ => h.of_apply he he'

theorem switch (h : Parallel env env') {n : Name} (hn : n ∈ StandardSection.names)
    (flags : SectionFlags) : (liftM (env.switch n flags) : Guarded Environment).Agree
      (liftM (env'.switch n flags)) Parallel := by
  refine .ofExcept fun env₁ env₁' h₁ h₁' => ?_
  obtain ⟨env₂, ha, rfl⟩ := except_map_eq_ok.mp h₁
  obtain ⟨env₂', hb, rfl⟩ := except_map_eq_ok.mp h₁'
  have hacts := acts_addSection hn flags
  have h₂ := h.of_apply hacts hacts ha hb
  exact ⟨h₂.outline, rfl, hn, h₂.plain, h₂.plain'⟩

theorem defineSymbol (h : Parallel env env') {t : Token}
    (ht : (t.text : Name) ∉ StandardSection.names) (type : SymbolType) (a : Address) :
    (env.defineSymbol t type a).Agree (env'.defineSymbol t type a) Parallel := by
  have hacts := acts_define ht type a t.location
  refine .ofEnsures (defineSymbol_spec env t type a) (defineSymbol_spec env' t type a) ?_
  rintro env₁ env₁' ⟨_, h₁⟩ ⟨_, h₁'⟩
  exact h.edit hacts hacts h₁ h₁'

theorem defineLabels (h : Parallel env env') (ts : List Token) :
    (defineLabels ts env).Agree (defineLabels ts env') Parallel := by
  induction ts generalizing env env' with
  | nil => exact .pure h
  | cons t ts ih =>
    rw [Environment.defineLabels, Environment.defineLabels, h.location]
    refine .reported ?_
    split
    · next hvalid =>
      exact .andThen (h.defineSymbol (not_standard_of_checkSymbolName hvalid) .label _)
        fun _ _ h₁ => ih h₁
    · exact ih h

theorem switchDirective (h : Parallel env env') (b : StatementBody) (s : StandardSection) :
    (env.switchDirective b s).Agree (env'.switchDirective b s) Parallel := by
  unfold Environment.switchDirective
  refine .reported ?_
  split
  · exact h.switch (List.mem_map_of_mem (StandardSection.mem_all s)) s.flags
  · exact .pure h

theorem sectionDirective (h : Parallel env env') {b : StatementBody}
    (hb : ∀ t ∈ (b.nameArgument (b.args.headD [])).value, (t.text : Name) ∈ StandardSection.names) :
    (env.sectionDirective b).Agree (env'.sectionDirective b) Parallel := by
  unfold Environment.sectionDirective
  refine .reported ?_
  split
  · refine .bindSame fun r hr => ?_
    obtain ⟨arg, harg, rfl⟩ := liftExcept_eq_ok.mp hr
    refine .reported ?_
    split
    · exact .pure h
    · next t ht =>
      have hhead : b.args.headD [] = arg := by
        rw [List.headD_eq_head?_getD, List.head?_eq_getElem?,
          StatementBody.argument_eq_ok.mp harg, Option.getD_some]
      have hstandard := hb t (hhead ▸ ht)
      split
      · refine .same fun _ => .reported ?_
        split
        · exact .pure h
        · exact h.switch hstandard _
      · exact h.switch hstandard _
  · exact .pure h

theorem declareBinding (h : Parallel env env') {t : Token}
    (ht : (t.text : Name) ∉ StandardSection.names) {binding : Binding} (hb : binding ≠ .internal) :
    (env.declareBinding t binding).Agree (env'.declareBinding t binding) Parallel := by
  have hacts := acts_declare ht hb
  have hbinding : ((env.module.symbol? t.text).map (·.binding)).getD .internal =
      ((env'.module.symbol? t.text).map (·.binding)).getD .internal := h.bindingOf t.text
  have hdeclared : ∀ (declared : Bool) (env : Environment),
      (if declared then pure env else .fault .unreachable : Guarded Environment).Ensures (· = env) := by
    intro declared env
    split
    · exact .pure rfl
    · exact .fault
  unfold Environment.declareBinding
  rw [hbinding]
  dsimp only
  split
  · exact .same fun _ => .same fun _ => .reported (.pure h)
  · refine .andThen (.ofExcept fun x y hx hy => h.edit hacts hacts hx hy) ?_
    rintro ⟨declared, env₁⟩ ⟨declared', env₁'⟩ h₁
    exact .ofEnsures (hdeclared declared env₁) (hdeclared declared' env₁') fun _ _ hx hy =>
      hx ▸ hy ▸ h₁

theorem bindingArguments (h : Parallel env env') (b : StatementBody) {binding : Binding}
    (hb : binding ≠ .internal) (args : List (List Token)) :
    (bindingArguments b binding args env).Agree (bindingArguments b binding args env') Parallel := by
  induction args generalizing env env' with
  | nil => exact .pure h
  | cons arg rest ih =>
    rw [Environment.bindingArguments, Environment.bindingArguments]
    refine .reported ?_
    split
    · exact ih h
    · refine .reported ?_
      split
      · next hvalid =>
        exact .andThen (h.declareBinding (not_standard_of_checkSymbolName hvalid) hb)
          fun _ _ h₁ => ih h₁
      · exact ih h

theorem bindingDirective (h : Parallel env env') (b : StatementBody) {binding : Binding}
    (hb : binding ≠ .internal) :
    (env.bindingDirective b binding).Agree (env'.bindingDirective b binding) Parallel := by
  unfold Environment.bindingDirective
  refine .reported ?_
  split
  · exact h.bindingArguments b hb b.args
  · exact .pure h

theorem defineConstant (h : Parallel env env') (b : StatementBody) :
    (env.defineConstant b).Agree (env'.defineConstant b) Parallel := by
  unfold Environment.defineConstant
  simp only [h.evaluate]
  refine .same fun _ => .reported ?_
  split
  · exact .pure h
  · refine .reported ?_
    split
    · next hvalid =>
      refine .same fun _ => .same fun v => ?_
      split
      · exact .pure h
      · split
        · exact .reported (.pure h)
        · exact h.defineSymbol (not_standard_of_checkSymbolName hvalid) _ _
    · exact .pure h

theorem equateDirective (h : Parallel env env') (b : StatementBody) :
    (env.equateDirective b).Agree (env'.equateDirective b) Parallel := by
  unfold Environment.equateDirective
  refine .reported ?_
  split
  · exact h.defineConstant b
  · exact .pure h

theorem setDirective (h : Parallel env env') (b : StatementBody) :
    (env.setDirective b).Agree (env'.setDirective b) Parallel := by
  have hoption : ∀ at₁ at₂ reorder₁ reorder₂, Parallel ⟨env.module, env.current, at₁, reorder₁⟩
      ⟨env'.module, env'.current, at₂, reorder₂⟩ := fun _ _ _ _ =>
    ⟨h.outline, h.current, h.standard, h.plain, h.plain'⟩
  unfold Environment.setDirective
  split
  · exact h.defineConstant b
  · refine .reported ?_
    split
    · refine .same fun _ => .reported ?_
      split
      · exact .pure h
      · split
        all_goals first
          | exact .pure (hoption _ _ _ _)
          | exact .reported (.pure h)
    · exact .pure h

theorem dataValue (h : Parallel env env') (b : StatementBody) (size : DataSize) (arg : List Token) :
    (env.dataValue b size arg).Agree (env'.dataValue b size arg)
      fun x y => x.1 = y.1 ∧ Parallel x.2 y.2 := by
  unfold Environment.dataValue
  rw [h.evaluate]
  refine .same fun v => ?_
  split
  · exact .pure ⟨rfl, h⟩
  · split
    · split
      · exact .andThen (h.apply (acts_track _) (acts_track _)) fun _ _ h₁ => .pure ⟨rfl, h₁⟩
      · exact .reported (.pure ⟨rfl, h⟩)
    · dsimp only
      split
      · exact .pure ⟨rfl, h⟩
      · exact .reported (.pure ⟨rfl, h⟩)

theorem append (h : Parallel env env') (bytes : ByteArray) :
    (liftM (env.apply (append env.current bytes)) : Guarded Environment).Agree
      (liftM (env'.apply (Module.append env'.current bytes))) Parallel := by
  have hacts := acts_append h.standard bytes
  exact h.apply hacts (h.current ▸ hacts)

theorem dataArguments (h : Parallel env env') (b : StatementBody) (size : DataSize)
    (args : List (List Token)) :
    (dataArguments b size args env).Agree (dataArguments b size args env') Parallel := by
  induction args generalizing env env' with
  | nil => exact .pure h
  | cons arg rest ih =>
    refine .andThen (h.dataValue b size arg) ?_
    rintro ⟨v, env₁⟩ ⟨_, env₁'⟩ ⟨rfl, h₁⟩
    dsimp only
    rw [h₁.order]
    exact .andThen (h₁.append _) fun _ _ h₂ => ih h₂

theorem checkInitialised (h : Parallel env env') (b : StatementBody) :
    env.checkInitialised b = env'.checkInitialised b := by
  rw [Environment.checkInitialised, Environment.checkInitialised, h.flags, h.current]

theorem dataDirective (h : Parallel env env') (b : StatementBody) (size : DataSize) :
    (env.dataDirective b size).Agree (env'.dataDirective b size) Parallel := by
  unfold Environment.dataDirective
  rw [h.checkInitialised]
  refine .reported ?_
  split
  · refine .reported ?_
    split
    · exact h.dataArguments b size b.args
    · exact .pure h
  · exact .pure h

theorem stringArguments (h : Parallel env env') (b : StatementBody) (terminated : Bool)
    (args : List (List Token)) :
    (stringArguments b terminated args env).Agree (stringArguments b terminated args env')
      Parallel := by
  induction args generalizing env env' with
  | nil => exact .pure h
  | cons arg rest ih =>
    rw [Environment.stringArguments, Environment.stringArguments]
    refine .reported ?_
    split
    · exact ih h
    · exact .andThen (h.append _) fun _ _ h₁ => ih h₁

theorem stringDirective (h : Parallel env env') (b : StatementBody) (terminated : Bool) :
    (env.stringDirective b terminated).Agree (env'.stringDirective b terminated) Parallel := by
  unfold Environment.stringDirective
  rw [h.checkInitialised]
  refine .reported ?_
  split
  · refine .reported ?_
    split
    · exact h.stringArguments b terminated b.args
    · exact .pure h
  · exact .pure h

/-- Whether there is room for some bytes depends on the length of the section only. -/
theorem spaceDirective (h : Parallel env env') (b : StatementBody) :
    (env.spaceDirective b).Agree (env'.spaceDirective b) Parallel := by
  unfold Environment.spaceDirective
  simp only [h.constant, h.offset, h.current]
  refine .reported ?_
  split
  · refine .same fun _ => .same fun n => ?_
    split
    · exact .pure h
    · split
      · exact .reported (.pure h)
      · split
        · exact .reported (.pure h)
        · have hacts := acts_reserve (h.current ▸ h.standard)
          exact h.apply (hacts _) (hacts _)
  · exact .pure h

theorem alignDirective (h : Parallel env env') (b : StatementBody) :
    (env.alignDirective b).Agree (env'.alignDirective b) Parallel := by
  unfold Environment.alignDirective
  simp only [h.constant, h.current]
  refine .reported ?_
  split
  · refine .same fun _ => .same fun n => ?_
    split
    · exact .pure h
    · split
      · exact .reported (.pure h)
      · have hacts := acts_align (h.current ▸ h.standard)
        exact h.apply (hacts _) (hacts _)
  · exact .pure h

theorem directive (h : Parallel env env') {b : StatementBody} (hd : b.isDirective)
    (hb : b.NamesStandard) : (env.directive b).Agree (env'.directive b) Parallel := by
  unfold Environment.directive
  split
  · next hname => exact h.sectionDirective (hb hd hname)
  · exact h.bindingDirective b nofun
  · exact h.bindingDirective b nofun
  · exact h.bindingDirective b nofun
  · exact h.bindingDirective b nofun
  · exact h.dataDirective b .word
  · exact h.dataDirective b .half
  · exact h.dataDirective b .byte
  · exact h.stringDirective b false
  · exact h.stringDirective b true
  · exact h.spaceDirective b
  · exact h.alignDirective b
  · exact h.equateDirective b
  · exact h.setDirective b
  · split
    · exact h.switchDirective b _
    · exact .reported (.pure h)

end Parallel

end Environment

end MipsToolchain
