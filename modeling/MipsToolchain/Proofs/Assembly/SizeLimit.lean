import MipsToolchain.Proofs.Assembly.Operands
import MipsToolchain.Proofs.Assembly.Strings
import MipsToolchain.Proofs.Assembly.Symbols

namespace MipsToolchain

open Diagnostic Guarded MipsToolchain.Module

/-- Whether a statement stores instructions or data, whose number nothing limits. -/
def StatementBody.stores (b : StatementBody) : Bool :=
  b.isInstruction || [".word", ".half", ".byte", ".ascii", ".asciiz"].contains b.name

def storesAt (file : String) (number : Int) (text : String) : Bool :=
  (statementAt file number text).1.body.any StatementBody.stores

namespace Module

variable {m m' : Module} {n k : Name} {bs : List UInt8}

theorem Appends.offset_other (h : Appends n bs m m') (hk : k ≠ n) : m'.offset k = m.offset k := by
  rw [Module.offset, Module.offset, h.others k hk]

/-- The limit is a multiple of every alignment, so that what is aligned below it ends below it. -/
theorem le_maxSectionSize_of_align {boundary k l : Nat} (hb : boundary ≤ maxAlignment)
    (hdvd : blockSize boundary ∣ l) (hl : l < k + blockSize boundary) (hk : k ≤ maxSectionSize) :
    l ≤ maxSectionSize := by
  have hlimit : blockSize boundary ∣ maxSectionSize :=
    (Nat.pow_dvd_pow 2 (hb.trans (by decide))).trans (by decide : 2 ^ 28 ∣ maxSectionSize)
  obtain ⟨a, rfl⟩ := hdvd
  obtain ⟨c, hc⟩ := hlimit
  have hlt : blockSize boundary * a < blockSize boundary * (c + 1) := by
    rw [Nat.mul_succ]
    omega
  rw [hc]
  exact Nat.mul_le_mul_left _ (Nat.le_of_lt_succ (Nat.lt_of_mul_lt_mul_left hlt))

end Module

namespace Environment

def Limited (env : Environment) : Prop := ∀ n, env.module.offset n ≤ maxSectionSize

def LimitedHere (env : Environment) : Prop := env.module.offset env.current ≤ maxSectionSize

def LimitedElsewhere (env : Environment) : Prop :=
  ∀ n, n ≠ env.current → env.module.offset n ≤ maxSectionSize

variable {env env' : Environment} {b : StatementBody}

theorem Limited.elsewhere (h : env.Limited) : env.LimitedElsewhere := fun n _ => h n

theorem LimitedElsewhere.limited (h : env.LimitedElsewhere) (hhere : env.LimitedHere) :
    env.Limited := by
  intro n
  by_cases hn : n = env.current
  · exact hn ▸ hhere
  · exact h n hn

/-- A state behind a step. If the step stored something within the limit, then all is within it. -/
def LimitedAfter (stores : Bool) (env : Environment) : Prop :=
  (stores → env.LimitedHere) → env.Limited

theorem Limited.after (h : env.Limited) (stores : Bool) : env.LimitedAfter stores := fun _ => h

theorem LimitedElsewhere.after (h : env.LimitedElsewhere) {stores : Bool} (hs : stores) :
    env.LimitedAfter stores :=
  fun hhere => h.limited (hhere hs)

-- What does not store anything keeps the limit. Bytes are reserved only where there is room.
namespace Limited

theorem of_offset (h : env.Limited) (ho : ∀ n, env'.module.offset n = env.module.offset n) :
    env'.Limited :=
  fun n => (ho n).trans_le (h n)

theorem of_appends (h : env.Limited) {n : Name} {bs : List UInt8}
    (ha : Appends n bs env.module env'.module)
    (hroom : env'.module.offset n ≤ maxSectionSize) : env'.Limited := by
  intro k
  by_cases hk : k = n
  · exact hk ▸ hroom
  · exact (ha.offset_other hk).trans_le (h k)

theorem switch (h : env.Limited) {n : Name} {flags : SectionFlags}
    (hs : env.switch n flags = .ok env') : env'.Limited := by
  obtain ⟨env₁, ha, rfl⟩ := except_map_eq_ok.mp hs
  obtain ⟨s, m, hm, rfl⟩ := apply_eq_ok ha
  have happends := (appends_addSection hm).2
  exact h.of_appends happends (happends.offset.trans_le (h n))

theorem align (h : env.Limited) {boundary : Nat}
    (ha : env.apply (Module.align env.current boundary) = .ok env') : env'.Limited := by
  obtain ⟨u, m, hm, rfl⟩ := apply_eq_ok ha
  obtain ⟨⟨k, happends⟩, hdvd, hlt⟩ := appends_align hm
  exact h.of_appends happends
    (le_maxSectionSize_of_align ((align_eq_ok hm).1) hdvd hlt (h env.current))

theorem reserve (h : env.Limited) {count : Int}
    (hroom : env.module.offset env.current + count.toNat ≤ maxSectionSize)
    (hr : env.apply (Module.reserve env.current count) = .ok env') : env'.Limited := by
  obtain ⟨k, m, hm, rfl⟩ := apply_eq_ok hr
  have happends := appends_reserve hm
  refine h.of_appends happends (happends.offset.trans_le ?_)
  rwa [List.length_replicate]

theorem defineSymbol (h : env.Limited) (t : Token) (type : SymbolType) (a : Address) :
    (env.defineSymbol t type a).Ensures Limited := by
  refine .mono (defineSymbol_spec env t type a) fun env' ⟨_, he⟩ => ?_
  obtain ⟨m, hm, rfl⟩ := edit_eq_ok he
  exact h.of_offset (keepsContents_define hm).offset

theorem defineLabels (h : env.Limited) (ts : List Token) :
    (defineLabels ts env).Ensures Limited := by
  induction ts generalizing env with
  | nil => exact .pure h
  | cons t ts ih =>
    rw [Environment.defineLabels]
    refine .skip fun _ => ?_
    split
    · exact .andThen (h.defineSymbol t .label _) fun _ h₁ => ih h₁
    · exact ih h

theorem prepare (h : env.Limited) (s : Statement) : (env.prepare s).Ensures Limited := by
  unfold Environment.prepare
  dsimp only
  split
  · exact .andThen (.ofExcept fun _ ha => h.align ha) fun _ h₁ => h₁.defineLabels s.labels
  · rw [pure_bind]
    exact h.defineLabels s.labels

theorem switchDirective (h : env.Limited) (b : StatementBody) (s : StandardSection) :
    (env.switchDirective b s).Ensures Limited := by
  unfold Environment.switchDirective
  refine .skip fun _ => ?_
  split
  · exact .ofExcept fun _ hs => h.switch hs
  · exact .pure h

theorem sectionDirective (h : env.Limited) (b : StatementBody) :
    (env.sectionDirective b).Ensures Limited := by
  unfold Environment.sectionDirective
  refine .skip fun _ => ?_
  split
  · refine .skip fun _ => .skip fun _ => ?_
    split
    · exact .pure h
    · split
      · refine .skip fun _ => .skip fun _ => ?_
        split
        · exact .pure h
        · exact .ofExcept fun _ hs => h.switch hs
      · exact .ofExcept fun _ hs => h.switch hs
  · exact .pure h

theorem declareBinding (h : env.Limited) (t : Token) (binding : Binding) :
    (env.declareBinding t binding).Ensures Limited := by
  unfold Environment.declareBinding
  dsimp only
  split
  · exact .skip fun _ => .skip fun _ => .skip fun _ => .pure h
  · refine .andThen (.ofExcept fun x hx => hx) fun ⟨declared, env'⟩ hx => ?_
    obtain ⟨m, hm, rfl⟩ := edit_eq_ok hx
    dsimp only
    split
    · exact .pure (h.of_offset (keepsContents_declare hm).offset)
    · exact .fault

theorem bindingArguments (h : env.Limited) (b : StatementBody) (binding : Binding)
    (args : List (List Token)) : (bindingArguments b binding args env).Ensures Limited := by
  induction args generalizing env with
  | nil => exact .pure h
  | cons arg rest ih =>
    rw [Environment.bindingArguments]
    refine .skip fun _ => ?_
    split
    · exact ih h
    · refine .skip fun _ => ?_
      split
      · exact .andThen (h.declareBinding _ binding) fun _ h₁ => ih h₁
      · exact ih h

theorem bindingDirective (h : env.Limited) (b : StatementBody) (binding : Binding) :
    (env.bindingDirective b binding).Ensures Limited := by
  unfold Environment.bindingDirective
  refine .skip fun _ => ?_
  split
  · exact h.bindingArguments b binding b.args
  · exact .pure h

theorem defineConstant (h : env.Limited) (b : StatementBody) :
    (env.defineConstant b).Ensures Limited := by
  unfold Environment.defineConstant
  refine .skip fun _ => .skip fun _ => ?_
  split
  · exact .pure h
  · refine .skip fun _ => ?_
    split
    · refine .skip fun _ => .skip fun _ => ?_
      split
      · exact .pure h
      · split
        · exact .skip fun _ => .pure h
        · exact h.defineSymbol _ _ _
    · exact .pure h

theorem equateDirective (h : env.Limited) (b : StatementBody) :
    (env.equateDirective b).Ensures Limited := by
  unfold Environment.equateDirective
  refine .skip fun _ => ?_
  split
  · exact h.defineConstant b
  · exact .pure h

theorem setDirective (h : env.Limited) (b : StatementBody) :
    (env.setDirective b).Ensures Limited := by
  unfold Environment.setDirective
  split
  · exact h.defineConstant b
  · refine .skip fun _ => ?_
    split
    · refine .skip fun _ => .skip fun _ => ?_
      split
      · exact .pure h
      · split
        all_goals first
          | exact .pure h
          | exact .skip fun _ => .pure h
    · exact .pure h

theorem spaceDirective (h : env.Limited) (b : StatementBody) :
    (env.spaceDirective b).Ensures Limited := by
  unfold Environment.spaceDirective
  refine .skip fun _ => ?_
  split
  · refine .skip fun _ => .skip fun _ => ?_
    split
    · exact .pure h
    · split
      · exact .skip fun _ => .pure h
      · split
        · exact .skip fun _ => .pure h
        · next hroom =>
          have hhere := h env.current
          exact .ofExcept fun _ hr => h.reserve (by omega) hr
  · exact .pure h

theorem alignDirective (h : env.Limited) (b : StatementBody) :
    (env.alignDirective b).Ensures Limited := by
  unfold Environment.alignDirective
  refine .skip fun _ => ?_
  split
  · refine .skip fun _ => .skip fun _ => ?_
    split
    · exact .pure h
    · split
      · exact .skip fun _ => .pure h
      · exact .ofExcept fun _ ha => h.align ha
  · exact .pure h

end Limited

-- What stores something does so in the current section, whether there is room or not.
namespace LimitedElsewhere

theorem of_offset (h : env.LimitedElsewhere) (hc : env'.current = env.current)
    (ho : ∀ n, n ≠ env.current → env'.module.offset n = env.module.offset n) :
    env'.LimitedElsewhere :=
  fun n hn => (ho n (hc ▸ hn)).trans_le (h n (hc ▸ hn))

theorem append (h : env.LimitedElsewhere) {bytes : ByteArray}
    (ha : env.apply (Module.append env.current bytes) = .ok env') : env'.LimitedElsewhere := by
  obtain ⟨k, m, hm, rfl⟩ := apply_eq_ok ha
  exact h.of_offset rfl fun n hn => (appends_append hm).2.offset_other hn

theorem reserve (h : env.LimitedElsewhere) {count : Int}
    (hr : env.apply (Module.reserve env.current count) = .ok env') : env'.LimitedElsewhere := by
  obtain ⟨k, m, hm, rfl⟩ := apply_eq_ok hr
  exact h.of_offset rfl fun n hn => (appends_reserve hm).offset_other hn

theorem track (h : env.LimitedElsewhere) {r : Reference}
    (ht : env.apply (Module.track r) = .ok env') : env'.LimitedElsewhere := by
  obtain ⟨u, m, hm, rfl⟩ := apply_eq_ok ht
  refine h.of_offset rfl fun n _ => ?_
  rw [Module.offset, Module.offset, Module.section?, Module.section?, (perform_track hm).1]

theorem storeWords (h : env.LimitedElsewhere) {tracked : Bool} {ws : List EncodedWord}
    (hs : storeWords tracked ws env = .ok env') : env'.LimitedElsewhere := by
  have hwrites := writes_storeWords hs
  refine h.of_offset hwrites.current fun n hn => ?_
  rw [← length_contentsOf, ← length_contentsOf, hwrites.others n hn]

theorem dataValue (h : env.LimitedElsewhere) (b : StatementBody) (size : DataSize)
    (arg : List Token) : (env.dataValue b size arg).Ensures fun x => x.2.LimitedElsewhere := by
  unfold Environment.dataValue
  refine .skip fun _ => ?_
  split
  · exact .pure h
  · split
    · split
      · exact .andThen (.ofExcept fun _ ht => h.track ht) fun _ h₁ => .pure h₁
      · exact .skip fun _ => .pure h
    · dsimp only
      split
      · exact .pure h
      · exact .skip fun _ => .pure h

theorem dataArguments (h : env.LimitedElsewhere) (b : StatementBody) (size : DataSize)
    (args : List (List Token)) : (dataArguments b size args env).Ensures LimitedElsewhere := by
  induction args generalizing env with
  | nil => exact .pure h
  | cons arg rest ih =>
    refine .andThen (h.dataValue b size arg) fun ⟨_, _⟩ h₁ => ?_
    exact .andThen (.ofExcept fun _ ha => h₁.append ha) fun _ h₂ => ih h₂

theorem dataDirective (h : env.LimitedElsewhere) (b : StatementBody) (size : DataSize) :
    (env.dataDirective b size).Ensures LimitedElsewhere := by
  unfold Environment.dataDirective
  refine .skip fun _ => ?_
  split
  · refine .skip fun _ => ?_
    split
    · exact h.dataArguments b size b.args
    · exact .pure h
  · exact .pure h

theorem stringArguments (h : env.LimitedElsewhere) (b : StatementBody) (terminated : Bool)
    (args : List (List Token)) :
    (stringArguments b terminated args env).Ensures LimitedElsewhere := by
  induction args generalizing env with
  | nil => exact .pure h
  | cons arg rest ih =>
    rw [Environment.stringArguments]
    refine .skip fun _ => ?_
    split
    · exact ih h
    · exact .andThen (.ofExcept fun _ ha => h.append ha) fun _ h₁ => ih h₁

theorem stringDirective (h : env.LimitedElsewhere) (b : StatementBody) (terminated : Bool) :
    (env.stringDirective b terminated).Ensures LimitedElsewhere := by
  unfold Environment.stringDirective
  refine .skip fun _ => ?_
  split
  · refine .skip fun _ => ?_
    split
    · exact h.stringArguments b terminated b.args
    · exact .pure h
  · exact .pure h

theorem instruction (h : env.LimitedElsewhere) (enc : Encoder) (b : StatementBody) :
    (env.instruction enc b).Ensures LimitedElsewhere := by
  unfold Environment.instruction
  extract_lets assembled
  have hassembled : (assembled ()).Ensures LimitedElsewhere := by
    refine .skip fun _ => ?_
    split
    · exact .pure h
    · refine .skip fun _ => ?_
      split
      · exact .ofExcept fun _ hr => h.reserve hr
      · exact .skip fun _ => .skip fun _ => .ofExcept fun _ hs => h.storeWords hs
  split
  · exact hassembled
  · exact .skip fun _ => hassembled

end LimitedElsewhere

namespace Limited

theorem directive (h : env.Limited) (b : StatementBody) :
    (env.directive b).Ensures (LimitedAfter b.stores) := by
  have hkept {x : Guarded Environment} (hx : x.Ensures Limited) :
      x.Ensures (LimitedAfter b.stores) :=
    hx.mono fun _ h' => h'.after b.stores
  have hstored {x : Guarded Environment} (hb : b.stores) (hx : x.Ensures LimitedElsewhere) :
      x.Ensures (LimitedAfter b.stores) :=
    hx.mono fun _ h' => h'.after hb
  unfold Environment.directive
  -- The directives in their order, of which five store something.
  split
  · exact hkept (h.sectionDirective b)
  · exact hkept (h.bindingDirective b .global)
  · exact hkept (h.bindingDirective b .global)
  · exact hkept (h.bindingDirective b .global)
  · exact hkept (h.bindingDirective b .weak)
  · next hname =>
    exact hstored (by simp [StatementBody.stores, hname]) (h.elsewhere.dataDirective b .word)
  · next hname =>
    exact hstored (by simp [StatementBody.stores, hname]) (h.elsewhere.dataDirective b .half)
  · next hname =>
    exact hstored (by simp [StatementBody.stores, hname]) (h.elsewhere.dataDirective b .byte)
  · next hname =>
    exact hstored (by simp [StatementBody.stores, hname]) (h.elsewhere.stringDirective b false)
  · next hname =>
    exact hstored (by simp [StatementBody.stores, hname]) (h.elsewhere.stringDirective b true)
  · exact hkept (h.spaceDirective b)
  · exact hkept (h.alignDirective b)
  · exact hkept (h.equateDirective b)
  · exact hkept (h.setDirective b)
  · split
    · exact hkept (h.switchDirective b _)
    · exact hkept (.skip fun _ => .pure h)

theorem body (h : env.Limited) (enc : Encoder) (s : Statement) :
    (env.body enc s).Ensures (LimitedAfter (s.body.any StatementBody.stores)) := by
  unfold Environment.body
  split
  · exact .pure (h.after _)
  · next b hb =>
    rw [hb, Option.any_some]
    split
    · exact h.directive b
    · split
      · next hi =>
        have hstores : b.stores := by rw [StatementBody.stores, hi, Bool.true_or]
        exact .mono (h.elsewhere.instruction enc b) fun _ h' => h'.after hstores
      · exact .pure (h.after _)

/-- A line keeps the limit, unless it stores something beyond it. -/
theorem line (h : env.Limited) (enc : Encoder) (file : String) (number : Int) (text : String) :
    (env.line enc file number text).Ensures (LimitedAfter (storesAt file number text)) := by
  unfold Environment.line storesAt statementAt
  refine .bind fun tokens ht => ?_
  cases liftReported_eq_ok.mp ht
  refine .bind fun x hx => ?_
  cases liftReported_eq_ok.mp hx
  dsimp only
  split
  · rw [statement_eq]
    exact .andThen (h.prepare _) fun _ h₁ => h₁.body enc _
  · exact .pure (h.after _)

theorem lines (h : env.Limited) (enc : Encoder) (file : String) (number : Int)
    {texts : List String} (hstored : ∀ (k : Nat) text env', texts[k]? = some text →
      storesAt file (number + k) text →
        (lines enc file number (texts.take (k + 1)) env).Gives env' → env'.LimitedHere) :
    (lines enc file number texts env).Ensures Limited := by
  induction texts generalizing number env with
  | nil => exact .pure h
  | cons text rest ih =>
    rw [Environment.lines]
    refine .bind fun r hr => ih (h.line enc file number text r hr fun hs => ?_) (number + 1) ?_
    · refine hstored 0 text r.value rfl ?_ ((Gives.ofOk hr).bind (.pure _))
      rwa [Nat.cast_zero, Int.add_zero]
    · intro k text' env' hk hs hgives
      refine hstored (k + 1) text' env' hk ?_ ((Gives.ofOk hr).bind hgives)
      rwa [Nat.cast_succ, Int.add_comm k, ← Int.add_assoc]

end Limited

theorem limited_iff_sections (hd : env.module.DistinctSections) :
    env.Limited ↔ ∀ t ∈ env.module.sections, t.length ≤ maxSectionSize := by
  constructor
  · intro h t ht
    rw [← offset_of_section? (find?_of_nodup Section.name hd ht)]
    exact h t.name
  · intro h n
    cases hn : env.module.section? n with
    | none => exact (offset_of_none hn).trans_le (Nat.zero_le _)
    | some t =>
      rw [offset_of_section? hn]
      exact h t (List.mem_of_find?_eq_some hn)

theorem line_of_parse {file text : String} {number : Int} {s : Statement}
    (htokens : (tokenizeLine file number text).diagnostics = [])
    (hparse : Statement.parse (tokenizeLine file number text).value = pure (s, true))
    (env : Environment) (enc : Encoder) :
    env.line enc file number text = env.statement enc s := by
  unfold Environment.line
  generalize tokenizeLine file number text = r at htokens hparse ⊢
  obtain ⟨tokens, ds⟩ := r
  cases htokens
  refine (pure_bind tokens _).trans ?_
  rw [hparse]
  exact pure_bind _ _

theorem apply_reserve (hopen : env.module.finalized = false) {n : Nat}
    (hn : (n : Int) ≤ addressSpace) :
    ∃ m, env.apply (Module.reserve env.current n) = .ok { env with module := m } ∧
      Appends env.current (List.replicate n 0) env.module m ∧
      m.flagsOf env.current = env.module.flagsOf env.current := by
  obtain ⟨⟨k, m⟩, hm⟩ := exists_append hopen env.current (zeroBytes n)
  rw [← perform_reserve hn] at hm
  exact ⟨m, by rw [apply, edit, hm]; rfl, appends_reserve hm, flagsOf_reserve hm _⟩

theorem constant_numeral {ts : List Token} {v : Int64} (hts : Numeral ts v) (b : StatementBody)
    (env : Environment) : b.constant env ts = pure (some v) := by
  obtain ⟨e, he, hv⟩ := hts.value b.head.location env.context
  have hevaluate : b.evaluate env ts = pure (some (.constant v)) := by
    rw [StatementBody.evaluate, he]
    exact (pure_bind (some e) _).trans hv
  rw [StatementBody.constant, hevaluate]
  exact pure_bind _ _

theorem statement_space (hopen : env.module.finalized = false) {n : Nat}
    (hroom : env.module.offset env.current + n ≤ maxSectionSize) {ts : List Token}
    (hkind : b.head.kind = .directive) (hname : b.name = ".space") (hargs : b.args = [ts])
    (hts : Numeral ts (Int64.ofNat n)) (enc : Encoder) :
    ∃ m, env.statement enc ⟨[], some b⟩ = pure { env with module := m } ∧
      Appends env.current (List.replicate n 0) env.module m ∧
      m.flagsOf env.current = env.module.flagsOf env.current := by
  have hlimit : maxSectionSize = 0x10000000 := rfl
  have hspace : addressSpace = 0x1000000000000 := rfl
  have haligned : b.name ∉ [".word", ".half"] := by
    rw [hname]
    decide
  have hcount : b.checkCount 1 (some 1) = pure true := if_pos (by simp [hargs])
  have hargument : b.argument 0 = .ok ts := StatementBody.argument_eq_ok.mpr (by simp [hargs])
  have hvalue : (Int64.ofNat n).toInt = n := Int64.toInt_ofNat_of_lt (by omega)
  have hnonneg : ¬Int64.ofNat n < 0 := by
    rw [Int64.lt_iff_toInt_lt, hvalue]
    exact Int.not_lt.mpr (Int.natCast_nonneg n)
  obtain ⟨m, hm, happends⟩ := apply_reserve hopen (n := n) (by omega)
  refine ⟨m, ?_, happends⟩
  have hspaced : env.directive b = env.spaceDirective b := by
    rw [directive, hname]
    rfl
  -- From here on the directive is run step by step, with a known result at each of them.
  rw [statement_directive hkind haligned, hspaced, spaceDirective, hcount]
  refine (pure_bind true _).trans ?_
  rw [if_pos rfl, hargument]
  refine (pure_bind ts _).trans ?_
  rw [constant_numeral hts]
  refine (pure_bind (some (Int64.ofNat n)) _).trans ?_
  dsimp only
  rw [if_neg hnonneg, hvalue, if_neg (by omega), hm]
  rfl

end Environment

theorem assembleLines_of_quiet {s : Settings} {name : String} {text : List String}
    {env : Environment} (h : Environment.lines s.encoder name 1 text
      (.initial { name, order := s.order }) = .ok ⟨env, []⟩) :
    assembleLines s name text = .ok ⟨env.module.finalize, []⟩ := by
  have hquiet : promoteIf s.strict [] = [] := by
    cases s.strict <;> rfl
  rw [assembleLines, h]
  dsimp only
  rw [hquiet]
  rfl

/-- Nothing but what stores instructions or data can make a section too long. The sections of a
module are within the limit if each line that stores something ends within it, in the section where
it stores that, and only then. -/
theorem sections_limited_iff {s : Settings} {name : String} {text : List String}
    {r : Reported Module} (h : assembleLines s name text = .ok r) :
    (∀ t ∈ r.value.sections, t.length ≤ maxSectionSize) ↔
      ∀ (k : Nat) line, text[k]? = some line → storesAt name (1 + k) line →
        ∃ env, (Environment.lines s.encoder name 1 (text.take (k + 1))
          (.initial { name, order := s.order })).Gives env ∧ env.LimitedHere := by
  obtain ⟨out, hout, -, hkeeps, -⟩ := assembleLines_eq_ok h
  have hmoves : Environment.Moves _ out.value := Environment.moves_lines _ _ _ _ _ out hout
  have hsound := hmoves.sound (Environment.sound_initial name s.order)
  rw [hkeeps.sections, ← Environment.limited_iff_sections hsound.built.distinctSections]
  constructor
  · intro hlimited k line hk hstores
    rw [← List.take_append_drop (k + 1) text, Environment.lines_append] at hout
    obtain ⟨out₁, out₂, hbefore, hafter, rfl⟩ := bind_eq_ok.mp hout
    have hlater : Environment.Moves out₁.value out₂.value :=
      Environment.moves_lines _ _ _ _ _ _ hafter
    exact ⟨out₁.value, .ofOk hbefore, (hlater.advances.grows.offset_le _).trans (hlimited _)⟩
  · intro hstored
    have hinitial : (Environment.initial { name, order := s.order }).Limited := fun _ =>
      Nat.zero_le _
    refine hinitial.lines s.encoder name 1 (fun k line env hk hs hgives => ?_) out hout
    obtain ⟨env', hgives', hhere⟩ := hstored k line hk hs
    exact hgives.unique hgives' ▸ hhere

/-- One byte behind as many as can be reserved. Nothing is reported, but the section is too long. -/
theorem sections_limited_iff_exceeded :
    ∃ r, assembleLines {} "a.s" [".space 268435456", ".ascii \"A\""] = .ok r ∧
      r.diagnostics = [] ∧ ¬(∀ t ∈ r.value.sections, t.length ≤ maxSectionSize) ∧
      ¬∀ (k : Nat) line, [".space 268435456", ".ascii \"A\""][k]? = some line →
        storesAt "a.s" (1 + k) line → ∃ env, (Environment.lines ({} : Settings).encoder "a.s" 1
          ([".space 268435456", ".ascii \"A\""].take (k + 1))
          (.initial { name := "a.s", order := .big })).Gives env ∧ env.LimitedHere := by
  let enc := ({} : Settings).encoder
  let env : Environment := .initial { name := "a.s", order := .big }
  let size : Token := ⟨"268435456", .immediate, ⟨"a.s", 1, 7⟩⟩
  let letter : Token := ⟨"\"A\"", .string, ⟨"a.s", 2, 7⟩⟩
  let space : StatementBody := ⟨⟨".space", .directive, ⟨"a.s", 1, 0⟩⟩, [[size]]⟩
  let ascii : StatementBody := ⟨⟨".ascii", .directive, ⟨"a.s", 2, 0⟩⟩, [[letter]]⟩
  -- The two lines as they are read.
  have hspace : env.line enc "a.s" 1 ".space 268435456" = env.statement enc ⟨[], some space⟩ :=
    env.line_of_parse (by decide +kernel) (by decide +kernel) enc
  have hascii (env : Environment) :
      env.line enc "a.s" 2 ".ascii \"A\"" = env.statement enc ⟨[], some ascii⟩ :=
    env.line_of_parse (by decide +kernel) (by decide +kernel) enc
  have hsize : Numeral [size] (Int64.ofNat maxSectionSize) :=
    numeral_immediate rfl (by decide +kernel)
  obtain ⟨m₁, hm₁, happ₁, hflags⟩ := env.statement_space (b := space) rfl (by decide) rfl
    (by decide) rfl hsize enc
  let env₁ : Environment := { env with module := m₁ }
  have hbits : env₁.flags.nobits = false := by
    rw [Environment.flags_eq, show env₁.module.flagsOf env₁.current = _ from hflags]
    rfl
  have hname : ascii.name = Environment.stringDirectiveName false := by decide
  obtain ⟨m₂, hm₂, happ₂⟩ :=
    env₁.statement_string happ₁.finalized hbits (b := ascii) rfl hname rfl rfl enc
  have hlines : Environment.lines enc "a.s" 1 [".space 268435456", ".ascii \"A\""] env =
      .ok ⟨{ env with module := m₂ }, []⟩ := by
    rw [Environment.lines, hspace, hm₁]
    refine (pure_bind env₁ _).trans ?_
    rw [Environment.lines, show (1 : Int) + 1 = 2 from rfl, hascii, hm₂]
    exact pure_bind _ _
  have hassembled : assembleLines {} "a.s" [".space 268435456", ".ascii \"A\""] =
      .ok ⟨m₂.finalize, []⟩ :=
    assembleLines_of_quiet hlines
  -- One byte goes behind as many as a section may have.
  have hlong : ¬∀ t ∈ m₂.finalize.sections, t.length ≤ maxSectionSize := by
    intro h
    obtain ⟨t, ht⟩ := Option.isSome_iff_exists.mp happ₂.present
    have hlength := happ₂.offset
    rw [offset_of_section? ht, show env₁.module.offset env₁.current = _ from happ₁.offset,
      List.length_replicate] at hlength
    have hbyte : (Environment.stringBytes false (Literal.unquote letter.text).1).length = 1 := by
      decide
    have hle := h t (List.mem_of_find?_eq_some ht)
    omega
  exact ⟨_, hassembled, rfl, hlong, mt (sections_limited_iff hassembled).mpr hlong⟩

end MipsToolchain
