import MipsToolchain.Proofs.Assembly.Growth
import MipsToolchain.Proofs.Assembly.Texts
import MipsToolchain.Proofs.Encoding.Names
import MipsToolchain.Proofs.Object.Persistence
import Mathlib.Logic.Relation

namespace MipsToolchain

open Diagnostic Guarded MipsToolchain.Module EncodedWord

namespace StatementBody

variable {b : StatementBody}

theorem not_isDirective (h : b.isInstruction) : b.isDirective = false := by
  simp_all [isDirective, isInstruction]

theorem not_isInstruction (h : b.isDirective) : b.isInstruction = false := by
  simp_all [isDirective, isInstruction]

end StatementBody

namespace Environment

/-- Whether a name is that of a symbol, as it can be written, or of a section with known places. -/
def Mentions (env : Environment) (n : Name) : Prop :=
  n.ZeroFree ∨ ∃ k a, env.resolve k = some a ∧ a.sectionName = n

/-- Whether an address is a number, or a place in a section with known places. -/
def Places (env : Environment) (a : Address) : Prop :=
  a.isRelocatable → a.sectionName = env.current ∨
    ∃ k b, env.resolve k = some b ∧ b.sectionName = a.sectionName

/-- What a symbol of a type may be defined as: labels are where the statement is. -/
def Defines (env : Environment) (type : SymbolType) (a : Address) : Prop :=
  type = .label ∧ a = env.location ∨ type = .constant ∧ env.Places a

/-- The words that a part of a text may store. Code can be anything. -/
inductive Payload where
  | nothing
  | data
  | code

/-- One thing that a statement does to the state. Words go to multiples of their size, each with the
reference that fits its place. Data does not go to a section without contents, but code does. -/
inductive Move (payload : Payload) : Environment → Environment → Prop
  | align {env env' : Environment} {boundary : Nat} :
      env.apply (Module.align env.current boundary) = .ok env' → Move payload env env'
  | reserve {env env' : Environment} {count : Int} :
      env.apply (Module.reserve env.current count) = .ok env' → Move payload env env'
  | append {env env' : Environment} {bytes : ByteArray} : env.flags.nobits = false →
      env.apply (Module.append env.current bytes) = .ok env' → Move payload env env'
  | store {env env' : Environment} {tracked : Bool} {ws : List EncodedWord} :
      payload ≠ .nothing → (payload = .data → env.flags.nobits = false) →
      4 ∣ env.module.offset env.current → WellEncoded env.location ws →
      (∀ w ∈ ws, ∀ r, w.reference = some r → env.Mentions r.symbol) →
      storeWords tracked ws env = .ok env' → Move payload env env'
  | switch {env env' : Environment} {n : Name} {flags : SectionFlags} : n.isEmpty = false →
      n.ZeroFree → env.switch n flags = .ok env' → Move payload env env'
  | define {env env' : Environment} {n : Name} {type : SymbolType} {a : Address}
      {origin : Source.Location} {defined : Bool} : n.ZeroFree → env.Defines type a →
      env.edit (Module.define n type a origin) = .ok (defined, env') → Move payload env env'
  | declare {env env' : Environment} {n : Name} {binding : Binding} {declared : Bool} :
      n.ZeroFree → binding = .global ∨ binding = .weak →
      env.edit (Module.declare n binding) = .ok (declared, env') → Move payload env env'
  | option {env : Environment} (reserveTemporary reorder : Bool) :
      Move payload env { env with reserveTemporary, reorder }

def MovesBy (payload : Payload) : Environment → Environment → Prop :=
  Relation.ReflTransGen (Move payload)

abbrev Moves : Environment → Environment → Prop := MovesBy .code

variable {payload : Payload}

namespace MovesBy

variable {env env' env'' : Environment}

theorem refl (env : Environment) : MovesBy payload env env := Relation.ReflTransGen.refl

theorem of (h : Move payload env env') : MovesBy payload env env' := Relation.ReflTransGen.single h

theorem trans (h : MovesBy payload env env') (h' : MovesBy payload env' env'') :
    MovesBy payload env env'' :=
  Relation.ReflTransGen.trans h h'

theorem mono {payload' : Payload} (h : MovesBy payload env env')
    (hp : payload ≠ .nothing → payload' ≠ .nothing ∧ (payload' = .data → payload = .data)) :
    MovesBy payload' env env' := by
  refine Relation.ReflTransGen.mono (fun a b hab => ?_) _ _ h
  cases hab with
  | align h => exact .align h
  | reserve h => exact .reserve h
  | append hf h => exact .append hf h
  | store hs hf ha hw hn h => exact .store (hp hs).1 (fun hd => hf ((hp hs).2 hd)) ha hw hn h
  | switch hn hz h => exact .switch hn hz h
  | define hn hd h => exact .define hn hd h
  | declare hn hb h => exact .declare hn hb h
  | option => exact .option _ _

theorem moves (h : MovesBy payload env env') : Moves env env' := h.mono fun _ => ⟨nofun, nofun⟩

theorem data (h : MovesBy .nothing env env') : MovesBy .data env env' := h.mono fun hs => absurd rfl hs

end MovesBy

theorem advances_storeWords {tracked : Bool} {ws : List EncodedWord} {env env' : Environment}
    (h : storeWords tracked ws env = .ok env') (hws : WellEncoded env.location ws) :
    Advances env env' := by
  induction ws generalizing env with
  | nil =>
    cases h
    exact .refl _
  | cons w ws ih =>
    rw [storeWords_cons] at h
    obtain ⟨env₁, ht, h⟩ := except_bind_eq_ok.mp h
    obtain ⟨env₂, ha, h⟩ := except_bind_eq_ok.mp h
    obtain ⟨hfits, -, hws⟩ := hws
    obtain ⟨hadv, hplace, -⟩ := storeWord_spec ht ha fun r hr => (hfits r hr).1
    exact hadv.trans (ih h (hplace ▸ hws))

theorem Defines.places {env : Environment} {type : SymbolType} {a : Address}
    (h : env.Defines type a) : env.Places a := by
  rcases h with ⟨-, rfl⟩ | ⟨-, h⟩
  · exact fun _ => .inl rfl
  · exact h

theorem Move.advances {env env' : Environment} (h : Move payload env env') : Advances env env' := by
  cases h with
  | align h => exact advances_align h
  | reserve h => exact advances_reserve h
  | append _ h => exact advances_append h
  | store _ _ _ hws _ h => exact advances_storeWords h hws
  | switch hn _ h => exact advances_switch hn h
  | define _ _ h =>
    obtain ⟨m, hm, rfl⟩ := edit_eq_ok h
    exact .of_grows (.of_keepsContents (keepsContents_define hm))
  | declare _ _ h =>
    obtain ⟨m, hm, rfl⟩ := edit_eq_ok h
    exact .of_grows (.of_keepsContents (keepsContents_declare hm))
  | option => exact ⟨.refl _, id⟩

theorem MovesBy.advances {env env' : Environment} (h : MovesBy payload env env') :
    Advances env env' := by
  induction h with
  | refl => exact .refl env
  | tail _ hmove ih => exact ih.trans hmove.advances

theorem flags_eq (env : Environment) : env.flags = env.module.flagsOf env.current := by
  unfold flags flagsOf
  cases env.module.section? env.current <;> rfl

theorem flagsOf_storeWords {tracked : Bool} {ws : List EncodedWord} {env env' : Environment}
    (h : storeWords tracked ws env = .ok env') (n : Name) :
    env'.module.flagsOf n = env.module.flagsOf n := by
  induction ws generalizing env with
  | nil =>
    cases h
    rfl
  | cons w ws ih =>
    rw [storeWords_cons] at h
    obtain ⟨env₁, ht, h⟩ := except_bind_eq_ok.mp h
    obtain ⟨env₂, ha, h⟩ := except_bind_eq_ok.mp h
    obtain ⟨k, m₂, hm₂, rfl⟩ := apply_eq_ok ha
    have htrack : env₁.module.flagsOf n = env.module.flagsOf n := by
      rcases trackWord_eq_ok ht with ⟨rfl, -⟩ | ⟨r, u, m₁, -, -, hm₁, rfl⟩
      · rfl
      · exact flagsOf_congr (perform_track hm₁).1 n
    exact (ih h).trans ((flagsOf_appendWord hm₂ n).trans htrack)

theorem flags_storeWords {tracked : Bool} {ws : List EncodedWord} {env env' : Environment}
    (h : storeWords tracked ws env = .ok env') : env'.flags = env.flags := by
  rw [flags_eq, flags_eq, (writes_storeWords h).current, flagsOf_storeWords h]

theorem mentions_target {env : Environment} {v : ExprValue} {names : List String}
    (hv : v.ComesFrom env.context names) (hn : ∀ n ∈ names, (RawText.ofString n).ZeroFree) :
    env.Mentions v.target := by
  unfold ExprValue.target
  split
  · next r hr =>
    obtain ⟨-, n, hmem, hname⟩ := hv.symbol r hr
    exact .inl (hname ▸ hn n hmem)
  · rcases hv.address with hempty | hknown
    · exact .inl (hempty ▸ RawText.zeroFree_empty)
    · exact .inr hknown

theorem zeroFree_of_namedIn {ts : List Token} (ht : ∀ t ∈ ts, t.Readable) {n : String}
    (h : NamedIn ts n) : (RawText.ofString n).ZeroFree := by
  obtain ⟨t, hmem, hk, rfl⟩ := h
  exact (ht t hmem).zeroFree (.inl hk)

theorem evaluate_spec (b : StatementBody) (env : Environment) {arg : List Token}
    (ha : ∀ t ∈ arg, t.Readable) : (b.evaluate env arg).Ensures fun o => ∀ v, o = some v →
      env.Mentions v.target ∧ env.Places v.address := by
  unfold StatementBody.evaluate
  refine .bind fun r hr => ?_
  cases liftReported_eq_ok.mp hr
  split
  · next e he =>
    refine .mono (Expr.comesFrom_eval env.context e) fun o ho v hv => ⟨?_, fun hrel => ?_⟩
    · refine mentions_target (ho v hv) fun n hn => ?_
      exact zeroFree_of_namedIn ha (SourceOperand.namedIn_parse he n hn)
    · rcases (ho v hv).address with hempty | hknown
      · rw [Address.isRelocatable, hempty] at hrel
        cases hrel
      · exact .inr hknown
  · exact .pure nofun

theorem defineSymbol_spec (env : Environment) (t : Token) (type : SymbolType) (a : Address) :
    (env.defineSymbol t type a).Ensures fun env' => ∃ defined,
      env.edit (Module.define t.text type a t.location) = .ok (defined, env') := by
  unfold defineSymbol
  refine .andThen (.ofExcept fun x hx => hx) fun ⟨defined, env'⟩ hx => ?_
  dsimp only
  split
  · exact .pure ⟨defined, hx⟩
  · exact .skip fun _ => .pure ⟨defined, hx⟩

theorem moves_defineSymbol {env : Environment} {t : Token} {type : SymbolType} {a : Address}
    (hn : (RawText.ofString t.text).ZeroFree) (hd : env.Defines type a) :
    (env.defineSymbol t type a).Ensures (MovesBy .nothing env) :=
  .mono (defineSymbol_spec env t type a) fun _ ⟨_, h⟩ => .of (.define hn hd h)

theorem moves_switchDirective (env : Environment) (b : StatementBody) (s : StandardSection) :
    (env.switchDirective b s).Ensures (MovesBy .nothing env) := by
  unfold switchDirective
  refine .skip fun ok => ?_
  split
  · exact .ofExcept fun env' h => .of (.switch (by cases s <;> rfl) (by cases s <;> decide) h)
  · exact .pure (.refl env)

theorem moves_sectionDirective (env : Environment) {b : StatementBody} (hb : HasTexts b) :
    (env.sectionDirective b).Ensures (MovesBy .nothing env) := by
  unfold sectionDirective
  refine .skip fun ok => ?_
  split
  · refine .andThen hb.argument fun arg harg => .bind fun r hr => ?_
    split
    · exact .pure (.refl env)
    · next t ht =>
      cases liftReported_eq_ok.mp hr
      obtain ⟨hn, hz⟩ := readable_nameArgument harg ht
      split
      · refine .skip fun _ => .skip fun f => ?_
        split
        · exact .pure (.refl env)
        · exact .ofExcept fun env' h => .of (.switch hn hz h)
      · exact .ofExcept fun env' h => .of (.switch hn hz h)
  · exact .pure (.refl env)

theorem moves_declareBinding (env : Environment) {t : Token} {binding : Binding}
    (hn : (RawText.ofString t.text).ZeroFree) (hb : binding = .global ∨ binding = .weak) :
    (env.declareBinding t binding).Ensures (MovesBy .nothing env) := by
  unfold declareBinding
  dsimp only
  split
  · refine .skip fun _ => .skip fun _ => .skip fun _ => .pure (.refl env)
  · refine .andThen (.ofExcept fun x hx => hx) fun ⟨declared, env'⟩ hx => ?_
    dsimp only
    split
    · exact .pure (.of (.declare hn hb hx))
    · exact .fault

theorem moves_bindingArguments (b : StatementBody) {binding : Binding}
    (hb : binding = .global ∨ binding = .weak) (args : List (List Token))
    (ha : ∀ arg ∈ args, ∀ t ∈ arg, t.Readable) (env : Environment) :
    (bindingArguments b binding args env).Ensures (MovesBy .nothing env) := by
  induction args generalizing env with
  | nil => exact .pure (.refl env)
  | cons arg rest ih =>
    obtain ⟨harg, hrest⟩ := List.forall_mem_cons.mp ha
    rw [bindingArguments]
    refine .bind fun r hr => ?_
    cases liftReported_eq_ok.mp hr
    split
    · exact ih hrest env
    · next t ht =>
      refine .skip fun ok => ?_
      split
      · have hn := (readable_nameArgument harg ht).2
        refine .andThen (moves_declareBinding env hn hb) fun env' h => ?_
        exact .mono (ih hrest env') fun _ h' => h.trans h'
      · exact ih hrest env

theorem moves_bindingDirective (env : Environment) {b : StatementBody} (hb : HasTexts b)
    {binding : Binding} (h : binding = .global ∨ binding = .weak) :
    (env.bindingDirective b binding).Ensures (MovesBy .nothing env) := by
  unfold bindingDirective
  refine .skip fun ok => ?_
  split
  · exact moves_bindingArguments b h b.args hb env
  · exact .pure (.refl env)

theorem moves_defineConstant (env : Environment) {b : StatementBody} (hb : HasTexts b) :
    (env.defineConstant b).Ensures (MovesBy .nothing env) := by
  unfold defineConstant
  refine .andThen hb.argument fun nameArg hn => .bind fun r hr => ?_
  cases liftReported_eq_ok.mp hr
  split
  · exact .pure (.refl env)
  · next t ht =>
    refine .skip fun ok => ?_
    split
    · refine .andThen hb.argument fun valueArg hv => ?_
      refine .andThen (evaluate_spec b env hv) fun o ho => ?_
      split
      · exact .pure (.refl env)
      · split
        · exact .skip fun _ => .pure (.refl env)
        · exact moves_defineSymbol (readable_nameArgument hn ht).2 (.inr ⟨rfl, (ho _ rfl).2⟩)
    · exact .pure (.refl env)

theorem moves_equateDirective (env : Environment) {b : StatementBody} (hb : HasTexts b) :
    (env.equateDirective b).Ensures (MovesBy .nothing env) := by
  unfold equateDirective
  refine .skip fun ok => ?_
  split
  · exact moves_defineConstant env hb
  · exact .pure (.refl env)

theorem moves_setDirective (env : Environment) {b : StatementBody} (hb : HasTexts b) :
    (env.setDirective b).Ensures (MovesBy .nothing env) := by
  unfold setDirective
  split
  · exact moves_defineConstant env hb
  · refine .skip fun ok => ?_
    split
    · refine .skip fun _ => .skip fun name => ?_
      split
      · exact .pure (.refl env)
      · split
        all_goals first
          | exact .pure (.of (.option _ _))
          | exact .skip fun _ => .pure (.refl env)
    · exact .pure (.refl env)

def dataWord (loc : Address) (v : ExprValue) : EncodedWord :=
  ⟨Isa.lowWord v.number,
    if v.isRelocatable then some ⟨loc, v.target, .absolute32, v.number⟩ else none⟩

theorem wellEncoded_dataWord (loc : Address) (v : ExprValue) : WellEncoded loc [dataWord loc v] := by
  have hr : ∀ r, (dataWord loc v).reference = some r →
      r = ⟨loc, v.target, .absolute32, v.number⟩ := by
    intro r hr
    unfold dataWord at hr
    split at hr
    · exact (Option.some.inj hr).symm
    · cases hr
  refine ⟨fun r h => ?_, fun r h hk => ?_, trivial⟩
  · cases hr r h
    exact ⟨rfl, Isa.toNat_lowWord _⟩
  · cases hr r h
    cases hk

def argumentValue (v : Option ExprValue) : ExprValue := v.getD (.constant 0)

theorem dataValue_word {env : Environment} {b : StatementBody} {arg : List Token}
    {r : Reported (Int64 × Environment)} (h : env.dataValue b .word arg = .ok r) :
    ∃ q, b.evaluate env arg = .ok q ∧ errorCount q.diagnostics ≤ errorCount r.diagnostics ∧
      r.value.1 = (argumentValue q.value).number ∧
      trackWord true (dataWord env.location (argumentValue q.value)) env = .ok r.value.2 := by
  obtain ⟨q, x, hq, hx, rfl⟩ := bind_eq_ok.mp h
  refine ⟨q, hq, by simp, ?_⟩
  cases hv : q.value with
  | none =>
    rw [hv] at hx
    cases pure_eq_ok.mp hx
    exact ⟨rfl, rfl⟩
  | some v =>
    rw [hv] at hx
    dsimp only at hx
    split at hx
    · next hrel =>
      rw [if_pos rfl] at hx
      obtain ⟨c, d, hc, hd, rfl⟩ := bind_eq_ok.mp hx
      obtain ⟨env', henv, rfl⟩ := liftExcept_eq_ok.mp hc
      cases pure_eq_ok.mp hd
      exact ⟨rfl, by simpa [trackWord, dataWord, argumentValue, hrel] using henv⟩
    · next hrel =>
      have hkeep : trackWord true (dataWord env.location v) env = .ok env := by
        simp [trackWord, dataWord, hrel]
        rfl
      split at hx
      · cases pure_eq_ok.mp hx
        exact ⟨rfl, hkeep⟩
      · obtain ⟨c, d, -, hd, rfl⟩ := bind_eq_ok.mp hx
        cases pure_eq_ok.mp hd
        exact ⟨rfl, hkeep⟩

theorem dataValue_short (env : Environment) (b : StatementBody) {size : DataSize}
    (hs : size ≠ .word) (arg : List Token) :
    (env.dataValue b size arg).Ensures fun x => x.2 = env := by
  unfold dataValue
  refine .skip fun v => ?_
  split
  · exact .pure rfl
  · split
    · exact .skip fun _ => .pure rfl
    · dsimp only
      split
      · exact .pure rfl
      · exact .skip fun _ => .pure rfl

theorem apply_appendWord (env : Environment) (w : UInt32) :
    env.apply (appendWord env.current w) =
      env.apply (append env.current (env.module.order.wordBytes w).toByteArray) := by
  unfold apply edit
  rw [appendWord, perform_bind, perform_get]
  rfl

theorem storeWords_dataWord {env env₁ env' : Environment} {v : ExprValue}
    (ht : trackWord true (dataWord env.location v) env = .ok env₁)
    (ha : env₁.apply (append env₁.current
      (DataSize.word.encode env₁.module.order v.number).toByteArray) = .ok env') :
    storeWords true [dataWord env.location v] env = .ok env' := by
  rw [storeWords_cons, ht]
  change (env₁.apply (appendWord env₁.current (Isa.lowWord v.number)) >>= fun e => .ok e) = .ok env'
  rw [apply_appendWord]
  exact except_bind_eq_ok.mpr ⟨env', ha, rfl⟩

theorem mentions_dataWord {env : Environment} {v : ExprValue} (hv : env.Mentions v.target)
    {r : Reference} (h : (dataWord env.location v).reference = some r) :
    env.Mentions r.symbol := by
  unfold dataWord at h
  split at h
  · cases h
    exact hv
  · cases h

theorem moves_dataWords (b : StatementBody) {args : List (List Token)}
    (hargs : ∀ arg ∈ args, ∀ t ∈ arg, t.Readable) {env : Environment}
    (hf : env.flags.nobits = false) (ha : 4 ∣ env.module.offset env.current) :
    (dataArguments b .word args env).Ensures (MovesBy .data env) := by
  induction args generalizing env with
  | nil => exact .pure (.refl env)
  | cons arg rest ih =>
    obtain ⟨harg, hrest⟩ := List.forall_mem_cons.mp hargs
    rw [dataArguments]
    refine .bind fun r hr => .andThen (.ofExcept fun x hx => hx) fun env' hx => ?_
    obtain ⟨q, hq, -, hn, ht⟩ := dataValue_word hr
    have hstore := storeWords_dataWord ht (hn ▸ hx)
    have hwrites := writes_storeWords hstore
    have hmentions : env.Mentions (argumentValue q.value).target := by
      cases hv : q.value with
      | none => exact .inl RawText.zeroFree_empty
      | some v => exact (evaluate_spec b env harg q hq v hv).1
    have hmove : MovesBy .data env env' := by
      refine .of (.store nofun (fun _ => hf) ha (wellEncoded_dataWord _ _) (fun w hw r hr => ?_) hstore)
      rw [List.mem_singleton.mp hw] at hr
      exact mentions_dataWord hmentions hr
    refine .mono (ih hrest ?_ ?_) fun _ h' => hmove.trans h'
    · rw [flags_storeWords hstore, hf]
    · rw [hwrites.current, hwrites.offset]
      exact Nat.dvd_add ha (Nat.dvd_mul_right 4 _)

theorem flags_append {env env' : Environment} {bytes : ByteArray}
    (h : env.apply (Module.append env.current bytes) = .ok env') : env'.flags = env.flags := by
  obtain ⟨k, m, hm, rfl⟩ := apply_eq_ok h
  rw [flags_eq, flags_eq]
  exact flagsOf_append hm env.current

theorem moves_dataShort (b : StatementBody) {size : DataSize} (hs : size ≠ .word)
    (args : List (List Token)) {env : Environment} (hf : env.flags.nobits = false) :
    (dataArguments b size args env).Ensures (MovesBy .nothing env) := by
  induction args generalizing env with
  | nil => exact .pure (.refl env)
  | cons arg rest ih =>
    rw [dataArguments]
    refine .andThen (dataValue_short env b hs arg) fun ⟨n, env₁⟩ heq => ?_
    cases heq
    refine .andThen (.ofExcept fun x hx => hx) fun env' hx => ?_
    exact .mono (ih (flags_append hx ▸ hf)) fun _ h' => (MovesBy.of (.append hf hx)).trans h'

theorem checkInitialised_eq_true {env : Environment} {b : StatementBody}
    (h : (env.checkInitialised b).value = true) : env.flags.nobits = false := by
  unfold checkInitialised at h
  split at h
  · cases h
  · next hf => simpa using hf

theorem moves_dataDirective (env : Environment) {b : StatementBody} {size : DataSize}
    (h : env.flags.nobits = false → (dataArguments b size b.args env).Ensures (MovesBy payload env)) :
    (env.dataDirective b size).Ensures (MovesBy payload env) := by
  unfold dataDirective
  refine .skip fun ok => ?_
  split
  · refine .bind fun r hr => ?_
    cases liftReported_eq_ok.mp hr
    split
    · next hok => exact h (checkInitialised_eq_true hok)
    · exact .pure (.refl env)
  · exact .pure (.refl env)

theorem moves_stringArguments (b : StatementBody) (terminated : Bool)
    (args : List (List Token)) {env : Environment} (hf : env.flags.nobits = false) :
    (stringArguments b terminated args env).Ensures (MovesBy .nothing env) := by
  induction args generalizing env with
  | nil => exact .pure (.refl env)
  | cons arg rest ih =>
    rw [stringArguments]
    refine .skip fun text => ?_
    split
    · exact ih hf
    · refine .andThen (.ofExcept fun x hx => hx) fun env' hx => ?_
      exact .mono (ih (flags_append hx ▸ hf)) fun _ h' => (MovesBy.of (.append hf hx)).trans h'

theorem moves_stringDirective (env : Environment) (b : StatementBody) (terminated : Bool) :
    (env.stringDirective b terminated).Ensures (MovesBy .nothing env) := by
  unfold stringDirective
  refine .skip fun ok => ?_
  split
  · refine .bind fun r hr => ?_
    cases liftReported_eq_ok.mp hr
    split
    · next hok => exact moves_stringArguments b terminated b.args (checkInitialised_eq_true hok)
    · exact .pure (.refl env)
  · exact .pure (.refl env)

theorem moves_spaceDirective (env : Environment) (b : StatementBody) :
    (env.spaceDirective b).Ensures (MovesBy .nothing env) := by
  unfold spaceDirective
  refine .skip fun ok => ?_
  split
  · refine .skip fun _ => .skip fun n => ?_
    split
    · exact .pure (.refl env)
    · split
      · exact .skip fun _ => .pure (.refl env)
      · split
        · exact .skip fun _ => .pure (.refl env)
        · exact .ofExcept fun env' h => .of (.reserve h)
  · exact .pure (.refl env)

theorem moves_alignDirective (env : Environment) (b : StatementBody) :
    (env.alignDirective b).Ensures (MovesBy .nothing env) := by
  unfold alignDirective
  refine .skip fun ok => ?_
  split
  · refine .skip fun _ => .skip fun n => ?_
    split
    · exact .pure (.refl env)
    · split
      · exact .skip fun _ => .pure (.refl env)
      · exact .ofExcept fun env' h => .of (.align h)
  · exact .pure (.refl env)

/-- A state whose current section ends where a statement can start. -/
def AlignedFor (env : Environment) (b : StatementBody) : Prop :=
  blockSize (alignmentOf b) ∣ env.module.offset env.current

theorem moves_plainDirective {env : Environment} {b : StatementBody} (hb : HasTexts b)
    (hw : b.name ≠ ".word") : (env.directive b).Ensures (MovesBy .nothing env) := by
  unfold directive
  split
  · exact moves_sectionDirective env hb
  · exact moves_bindingDirective env hb (.inl rfl)
  · exact moves_bindingDirective env hb (.inl rfl)
  · exact moves_bindingDirective env hb (.inl rfl)
  · exact moves_bindingDirective env hb (.inr rfl)
  · next hname => exact absurd hname hw
  · exact moves_dataDirective env (moves_dataShort b (fun h => by cases h) b.args)
  · exact moves_dataDirective env (moves_dataShort b (fun h => by cases h) b.args)
  · exact moves_stringDirective env b false
  · exact moves_stringDirective env b true
  · exact moves_spaceDirective env b
  · exact moves_alignDirective env b
  · exact moves_equateDirective env hb
  · exact moves_setDirective env hb
  · split
    · exact moves_switchDirective env b _
    · exact .skip fun _ => .pure (.refl env)

theorem moves_directive {env : Environment} {b : StatementBody} (hb : HasTexts b)
    (hd : b.isInstruction = false) (ha : env.AlignedFor b) :
    (env.directive b).Ensures (MovesBy .data env) := by
  by_cases hw : b.name = ".word"
  · have hboundary : alignmentOf b = 2 := by simp [alignmentOf, hd, hw]
    rw [AlignedFor, hboundary] at ha
    unfold directive
    simp only [hw]
    exact moves_dataDirective env fun hf => moves_dataWords b hb hf ha
  · exact .mono (moves_plainDirective hb hw) fun _ h => h.data

theorem instruction_yields (env : Environment) (enc : Encoder) (b : StatementBody) :
    (env.instruction enc b).Yields fun env' => ∃ m q r, (enc.recognise b.head).value = some m ∧
      (Encoder.parse m b.head b.args).value = some q ∧ enc.encode env.context q = .ok r ∧
      errorCount r.diagnostics = 0 ∧ storeWords r.value.2 r.value.1 env = .ok env' := by
  unfold instruction
  extract_lets assembled
  have h : (assembled ()).Yields fun env' => ∃ m q r, (enc.recognise b.head).value = some m ∧
      (Encoder.parse m b.head b.args).value = some q ∧ enc.encode env.context q = .ok r ∧
      errorCount r.diagnostics = 0 ∧ storeWords r.value.2 r.value.1 env = .ok env' := by
    dsimp only [assembled]
    refine .bind fun r hr he => ?_
    cases liftReported_eq_ok.mp hr
    obtain ⟨m, hm⟩ := Option.isSome_iff_exists.mp (enc.recognise_yields b.head he)
    rw [hm]
    refine .bind fun r hr he => ?_
    cases liftReported_eq_ok.mp hr
    obtain ⟨q, hq⟩ := Option.isSome_iff_exists.mp (Encoder.parse_yields m b.head b.args he)
    rw [hq]
    refine .skip fun _ => .bind fun r hr he => .ofExcept fun env' hstore => ?_
    exact ⟨m, q, r, rfl, hq, hr, he, hstore⟩
  split
  · exact h
  · exact .skip fun _ => h

theorem moves_instruction {env : Environment} (enc : Encoder) {b : StatementBody}
    (hb : HasTexts b) (ha : 4 ∣ env.module.offset env.current) :
    (env.instruction enc b).Ensures (Moves env) := by
  unfold instruction
  extract_lets assembled
  have h : (assembled ()).Ensures (Moves env) := by
    dsimp only [assembled]
    refine .bind fun r hr => ?_
    cases liftReported_eq_ok.mp hr
    split
    · exact .pure (.refl env)
    · next m hm =>
      refine .bind fun r hr => ?_
      cases liftReported_eq_ok.mp hr
      split
      · exact .ofExcept fun env' h => .of (.reserve h)
      · next q hq =>
        have hknown : q.mnemonic.Known := Encoder.mnemonic_parse hq ▸ Encoder.known_recognise hm
        refine .skip fun _ => .bind fun r hr => .ofExcept fun env' h => ?_
        have hw : WellEncoded env.location r.value.1 := Encoder.wellEncoded_encode hknown r hr
        refine .of (.store nofun nofun ha hw (fun w hmem p hp => ?_) h)
        obtain ⟨v, hv, hsymbol⟩ := Encoder.comesFrom_encode r hr w hmem p hp
        rw [hsymbol]
        refine mentions_target hv fun n hn => ?_
        obtain ⟨o, ho, hn⟩ := List.mem_flatMap.mp hn
        obtain ⟨arg, harg, hname⟩ := Encoder.namedIn_parse hq o ho n hn
        exact zeroFree_of_namedIn (hb arg harg) hname
  split
  · exact h
  · exact .skip fun _ => h

def prepare (env : Environment) (s : Statement) : Guarded Environment := do
  let boundary := (s.body.map alignmentOf).getD 0
  let env ← if 0 < boundary then env.apply (Module.align env.current boundary) else pure env
  defineLabels s.labels env

def body (env : Environment) (enc : Encoder) (s : Statement) : Guarded Environment :=
  match s.body with
  | none => pure env
  | some b =>
    if b.isDirective then env.directive b
    else if b.isInstruction then env.instruction enc b
    else pure env

theorem statement_eq (env : Environment) (enc : Encoder) (s : Statement) :
    env.statement enc s = env.prepare s >>= fun env' => env'.body enc s := by
  unfold statement prepare body
  dsimp only
  split
  · exact (bind_assoc ..).symm
  · exact (bind_assoc ..).symm

theorem defineLabels_spec {ts : List Token} (ht : ∀ t ∈ ts, (RawText.ofString t.text).ZeroFree)
    (env : Environment) : (defineLabels ts env).Ensures fun env' =>
      MovesBy .nothing env env' ∧ env'.current = env.current ∧
        KeepsContents env.module env'.module := by
  induction ts generalizing env with
  | nil => exact .pure ⟨.refl env, rfl, .refl _⟩
  | cons t ts ih =>
    obtain ⟨hn, hrest⟩ := List.forall_mem_cons.mp ht
    unfold defineLabels
    refine .skip fun ok => ?_
    split
    · refine .andThen (defineSymbol_spec env t .label _) fun env₁ ⟨b, h⟩ => ?_
      obtain ⟨m, hm, rfl⟩ := edit_eq_ok h
      refine .mono (ih hrest _) fun env' ⟨hmoves, hcurrent, hkeeps⟩ => ?_
      exact ⟨(MovesBy.of (.define hn (.inl ⟨rfl, rfl⟩) h)).trans hmoves, hcurrent,
        (keepsContents_define hm).trans hkeeps⟩
    · exact ih hrest env

theorem prepare_spec (env : Environment) {s : Statement}
    (hl : ∀ t ∈ s.labels, (RawText.ofString t.text).ZeroFree) :
    (env.prepare s).Ensures fun env' => MovesBy .nothing env env' ∧ env'.current = env.current ∧
      ∀ b, s.body = some b → env'.AlignedFor b := by
  unfold prepare
  dsimp only
  split
  · refine .andThen (.ofExcept fun x hx => hx) fun env₁ h => ?_
    obtain ⟨u, m, hm, rfl⟩ := apply_eq_ok h
    refine .mono (defineLabels_spec hl _) fun env' ⟨hmoves, hcurrent, hkeeps⟩ => ?_
    refine ⟨(MovesBy.of (.align h)).trans hmoves, hcurrent, fun b hb => ?_⟩
    rw [AlignedFor, hcurrent, hkeeps.offset]
    rw [hb] at hm
    exact (appends_align hm).2.1
  · next hzero =>
    rw [pure_bind]
    refine .mono (defineLabels_spec hl env) fun env' ⟨hmoves, hcurrent, hkeeps⟩ => ?_
    refine ⟨hmoves, hcurrent, fun b hb => ?_⟩
    have hboundary : alignmentOf b = 0 := by simpa [hb] using hzero
    rw [AlignedFor, hboundary]
    exact Nat.one_dvd _

theorem moves_body {env : Environment} (enc : Encoder) {s : Statement}
    (hs : ∀ b, s.body = some b → HasTexts b ∧ env.AlignedFor b) :
    (env.body enc s).Ensures (Moves env) := by
  unfold body
  split
  · exact .pure (.refl env)
  · next b hb =>
    obtain ⟨htexts, haligned⟩ := hs b hb
    split
    · next hd =>
      exact .mono (moves_directive htexts (StatementBody.not_isInstruction hd) haligned) fun _ h =>
        h.moves
    · split
      · next hi =>
        rw [AlignedFor, alignmentOf, if_pos hi] at haligned
        exact moves_instruction enc htexts haligned
      · exact .pure (.refl env)

theorem moves_line (env : Environment) (enc : Encoder) (file : String) (number : Int)
    (text : String) : (env.line enc file number text).Ensures (Moves env) := by
  unfold line
  refine .bind fun tokens ht => ?_
  cases liftReported_eq_ok.mp ht
  refine .bind fun x hx => ?_
  cases liftReported_eq_ok.mp hx
  rcases hs : (Statement.parse (tokenizeLine file number text).value).value with ⟨s, ok⟩
  cases ok with
  | false => exact .pure (.refl env)
  | true =>
    change (env.statement enc s).Ensures _
    rw [statement_eq]
    have hreadable : ∀ t ∈ (tokenizeLine file number text).value.tokens, t.Readable := fun t =>
      readable_of_mem_tokenizeLine
    refine .andThen (prepare_spec env (Statement.zeroFree_labels hs hreadable))
      fun env₁ ⟨hmoves, _, haligned⟩ => ?_
    refine .mono (moves_body enc fun b hb => ⟨?_, haligned b hb⟩) fun _ h => hmoves.moves.trans h
    exact Statement.hasTexts_parse hs hb hreadable

/-- All that assembling consecutive lines does is a sequence of moves. -/
theorem moves_lines (enc : Encoder) (file : String) (number : Int) (texts : List String)
    (env : Environment) : (lines enc file number texts env).Ensures (Moves env) := by
  induction texts generalizing number env with
  | nil => exact .pure (.refl env)
  | cons text rest ih =>
    rw [lines]
    refine .andThen (moves_line env enc file number text) fun env₁ h => ?_
    exact .mono (ih (number + 1) env₁) fun _ h' => h.trans h'

end Environment

theorem assembleLines_eq_ok {s : Settings} {name : String} {text : List String}
    {r : Reported Module} (h : assembleLines s name text = .ok r) :
    ∃ out, Environment.lines s.encoder name 1 text (.initial { name, order := s.order }) = .ok out ∧
      errorCount out.diagnostics ≤ errorCount r.diagnostics ∧
      KeepsContents out.value.module r.value ∧ r.value.symbols = out.value.module.symbols := by
  unfold assembleLines at h
  split at h
  · cases h
  · next out hout =>
    cases h
    refine ⟨out, hout, errorCount_le_promoteIf _ _, ?_, ?_⟩
    · dsimp only
      split <;> exact ⟨rfl, rfl, rfl⟩
    · dsimp only
      split <;> rfl

end MipsToolchain
