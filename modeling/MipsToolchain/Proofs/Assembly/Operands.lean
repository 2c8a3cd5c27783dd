import MipsToolchain.Proofs.Assembly.Completion
import MipsToolchain.Proofs.Assembly.Parallel

namespace MipsToolchain

open Guarded MipsToolchain.Module

theorem Mnemonic.Known.count_pos {m : Mnemonic} (h : m.Known) : 0 < m.count := by
  cases m with
  | machine i => exact Nat.one_pos
  | pseudo q =>
    have hleast : ∀ q ∈ Pseudo.all, 0 < q.count := by decide
    exact hleast q h

namespace Environment

/-- A state that differs from another one, as far as that shows, by bytes at the end of the current
section. -/
structure Extends (k : Nat) (env env' : Environment) : Prop where
  current : env'.current = env.current
  plain : env'.module.Plain
  outline : env'.module.outline = env.module.outline.grow env.current k

namespace Extends

variable {j k : Nat} {env env₁ env' env'' : Environment}

theorem trans (h : Extends j env env₁) (h' : Extends k env₁ env') : Extends (j + k) env env' where
  current := h'.current.trans h.current
  plain := h'.plain
  outline := by rw [h'.outline, h.outline, h.current, Outline.grow_grow]

theorem parallel (h : Parallel env env') (h₁ : Extends k env env₁) (h₂ : Extends k env' env'') :
    Parallel env₁ env'' where
  outline := by rw [h₁.outline, h₂.outline, h.outline, h.current]
  current := by rw [h₁.current, h₂.current, h.current]
  standard := h₁.current ▸ h.standard
  plain := h₁.plain
  plain' := h₂.plain

end Extends

section Instruction

variable {env env₁ env' : Environment}

theorem extends_apply {α : Type} {e : Edit α} {k : Nat} (hm : env.module.Plain)
    (he : Acts e (·.grow env.current k)) (h : env.apply e = .ok env') : Extends k env env' := by
  obtain ⟨a, m, hperform, rfl⟩ := apply_eq_ok h
  obtain ⟨hplain, houtline⟩ := he _ _ _ hm hperform
  exact ⟨rfl, hplain, houtline⟩

variable (hs : env.current ∈ StandardSection.names) (hm : env.module.Plain)

include hs hm

theorem extends_storeWord {tracked : Bool} {w : EncodedWord}
    (ht : trackWord tracked w env = .ok env₁)
    (ha : env₁.apply (appendWord env₁.current w.value) = .ok env') : Extends 4 env env' := by
  rcases trackWord_eq_ok ht with ⟨rfl, -⟩ | ⟨r, u, m, -, -, htrack, rfl⟩
  · exact extends_apply hm (acts_appendWord hs w.value) ha
  · obtain ⟨hplain, houtline⟩ := acts_track r _ _ _ hm htrack
    have h : Extends 4 { env with module := m } env' :=
      extends_apply hplain (acts_appendWord hs w.value) ha
    exact ⟨h.current, h.plain, h.outline.trans (congrArg (·.grow env.current 4) houtline)⟩

theorem extends_storeWords {tracked : Bool} {w : EncodedWord} {ws : List EncodedWord}
    (h : storeWords tracked (w :: ws) env = .ok env') : Extends (4 * (ws.length + 1)) env env' := by
  induction ws generalizing w env with
  | nil =>
    rw [storeWords_cons] at h
    obtain ⟨env₁, ht, h⟩ := except_bind_eq_ok.mp h
    obtain ⟨env₂, ha, h⟩ := except_bind_eq_ok.mp h
    cases h
    exact extends_storeWord hs hm ht ha
  | cons w' ws ih =>
    rw [storeWords_cons] at h
    obtain ⟨env₁, ht, h⟩ := except_bind_eq_ok.mp h
    obtain ⟨env₂, ha, h⟩ := except_bind_eq_ok.mp h
    have hfirst := extends_storeWord hs hm ht ha
    have hrest := hfirst.trans (ih (hfirst.current ▸ hs) hfirst.plain h)
    rwa [Nat.add_comm, ← Nat.mul_succ] at hrest

theorem instruction_extends (enc : Encoder) (b : StatementBody) :
    (env.instruction enc b).Ensures fun env' =>
      ((enc.recognise b.head).value = none → env' = env) ∧
      ∀ m, (enc.recognise b.head).value = some m → Extends m.size env env' := by
  unfold instruction
  extract_lets assembled
  have hassembled : (assembled ()).Ensures fun env' =>
      ((enc.recognise b.head).value = none → env' = env) ∧
      ∀ m, (enc.recognise b.head).value = some m → Extends m.size env env' := by
    -- However the instruction is read, it takes the words of its mnemonic or none.
    refine .bind fun r hr => ?_
    cases liftReported_eq_ok.mp hr
    cases hrecognise : (enc.recognise b.head).value with
    | none => exact .pure ⟨fun _ => rfl, nofun⟩
    | some m =>
      suffices hextends : Guarded.Ensures _ (Extends m.size env) from
        hextends.mono fun env' h => ⟨nofun, fun _ hm => Option.some.inj hm ▸ h⟩
      refine .bind fun r hr => ?_
      cases liftReported_eq_ok.mp hr
      cases hparse : (Encoder.parse m b.head b.args).value with
      | none => exact .ofExcept fun env' h => extends_apply hm (acts_reserve hs m.size) h
      | some p =>
        have hpos := (Encoder.known_recognise hrecognise).count_pos
        refine .skip fun _ => .andThen (Encoder.length_encode enc env.context p) fun x hlen => ?_
        rw [Encoder.mnemonic_parse hparse] at hlen
        refine .ofExcept fun env' h => ?_
        obtain ⟨w, ws, hws⟩ := List.exists_cons_of_length_pos (hlen ▸ hpos)
        rw [hws] at h hlen
        have hsize : 4 * (ws.length + 1) = m.size := congrArg (4 * ·) hlen
        exact hsize ▸ extends_storeWords hs hm h
  split
  · exact hassembled
  · exact .skip fun _ => hassembled

end Instruction

end Environment

def statementAt (file : String) (number : Int) (text : String) : Statement × Bool :=
  (Statement.parse (tokenizeLine file number text).value).value

def Environment.prepareAt (env : Environment) (file : String) (number : Int) (text : String) :
    Guarded Environment :=
  if (statementAt file number text).2 then env.prepare (statementAt file number text).1
  else pure env

inductive Statement.Parallel : Statement → Statement → Prop
  | same {s : Statement} : (∀ b ∈ s.body, b.NamesStandard) → Parallel s s
  | operands (labels : List Token) {head : Token} (args args' : List (List Token)) :
      head.kind = .instruction → Parallel ⟨labels, some ⟨head, args⟩⟩ ⟨labels, some ⟨head, args'⟩⟩

/-- Lines at the same place of two texts that are the same, or differ in the operands of an
instruction. -/
structure LinesParallel (file : String) (number : Int) (x y : String) : Prop where
  wellFormed : (statementAt file number x).2 = (statementAt file number y).2
  statement : (statementAt file number x).1.Parallel (statementAt file number y).1

structure TextsParallel (file : String) (number : Int) (xs ys : List String) : Prop where
  length : xs.length = ys.length
  lines : ∀ (k : Nat) x y, xs[k]? = some x → ys[k]? = some y →
    LinesParallel file (number + k) x y

namespace TextsParallel

variable {file : String} {number : Int} {x y : String} {xs ys : List String}

theorem take (h : TextsParallel file number xs ys) (k : Nat) :
    TextsParallel file number (xs.take k) (ys.take k) := by
  have hget : ∀ {zs : List String} {j : Nat} {z : String}, (zs.take k)[j]? = some z →
      zs[j]? = some z := by
    intro zs j z hz
    rw [List.getElem?_take] at hz
    split at hz
    · exact hz
    · cases hz
  exact ⟨by rw [List.length_take, List.length_take, h.length],
    fun j x y hx hy => h.lines j x y (hget hx) (hget hy)⟩

theorem tail (h : TextsParallel file number (x :: xs) (y :: ys)) :
    TextsParallel file (number + 1) xs ys := by
  refine ⟨Nat.succ.inj h.length, fun k x y hx hy => ?_⟩
  have hk := h.lines (k + 1) x y hx hy
  rwa [Nat.cast_succ, Int.add_comm k, ← Int.add_assoc] at hk

end TextsParallel

theorem statementAt_of_instruction {file : String} {number : Int} {text : String}
    {labels rest : List Token} {head : Token} (hlabels : ∀ t ∈ labels, t.kind = .label)
    (hhead : head.kind = .instruction) (hrest : ∀ t ∈ rest, t.kind ≠ .unknown)
    (h : (tokenizeLine file number text).value.significant = labels ++ head :: rest) :
    statementAt file number text = (⟨labels, some ⟨head, Statement.arguments rest⟩⟩, true) := by
  have hlabel : ∀ t ∈ labels, Statement.isLabel t := fun t ht => beq_iff_eq.mpr (hlabels t ht)
  have hstop : Statement.isLabel head = false := by simp [Statement.isLabel, hhead]
  have hknown : (labels ++ head :: rest).any (·.kind == .unknown) = false := by
    rw [List.any_eq_false]
    intro t ht
    rw [beq_iff_eq]
    rcases List.mem_append.mp ht with ht | ht
    · rw [hlabels t ht]
      decide
    · rcases List.mem_cons.mp ht with rfl | ht
      · rw [hhead]
        decide
      · exact hrest t ht
  unfold statementAt Statement.parse
  dsimp only
  rw [h, hknown, List.takeWhile_append_of_pos hlabel, List.dropWhile_append_of_pos hlabel,
    List.takeWhile_cons_of_neg (by simp [hstop]), List.dropWhile_cons_of_neg (by simp [hstop]),
    List.append_nil]
  dsimp only
  rw [if_neg Bool.false_ne_true, if_pos (.inr hhead)]
  rfl

theorem Environment.Open.exists_prepareAt {env : Environment} (h : env.Open) (file : String)
    (number : Int) (text : String) : ∃ env', (env.prepareAt file number text).Gives env' := by
  unfold prepareAt
  split
  · obtain ⟨r, hr, -⟩ := h.completes_prepare (statementAt file number text).1
    exact ⟨r.value, .ofOk hr⟩
  · exact ⟨env, .pure env⟩

namespace Environment.Parallel

variable {env env' : Environment}

theorem prepare (h : Parallel env env') {s s' : Statement} (hs : s.Parallel s') :
    (env.prepare s).Agree (env'.prepare s') Parallel := by
  have hsame : ∀ s, (env.prepare s).Agree (env'.prepare s) Parallel := by
    intro s
    unfold Environment.prepare
    dsimp only
    split
    · rw [← h.current]
      have hacts := acts_align h.standard
      exact .andThen (h.apply (hacts _) (hacts _)) fun _ _ h₁ => h₁.defineLabels s.labels
    · rw [pure_bind, pure_bind]
      exact h.defineLabels s.labels
  cases hs with
  | same => exact hsame s
  | operands => exact hsame _

theorem instruction (h : Parallel env env') (enc : Encoder) (head : Token)
    (args args' : List (List Token)) :
    (env.instruction enc ⟨head, args⟩).Agree (env'.instruction enc ⟨head, args'⟩) Parallel := by
  refine .ofEnsures (instruction_extends h.standard h.plain enc ⟨head, args⟩)
    (instruction_extends (h.current ▸ h.standard) h.plain' enc ⟨head, args'⟩) ?_
  rintro env₁ env₂ ⟨hnone, hsome⟩ ⟨hnone', hsome'⟩
  cases hm : (enc.recognise head).value with
  | none => exact hnone hm ▸ hnone' hm ▸ h
  | some m => exact Extends.parallel h (hsome m hm) (hsome' m hm)

theorem body (h : Parallel env env') (enc : Encoder) {s s' : Statement} (hs : s.Parallel s') :
    (env.body enc s).Agree (env'.body enc s') Parallel := by
  unfold Environment.body
  cases hs with
  | same hb =>
    split
    · exact .pure h
    · next b hbody =>
      split
      · next hd => exact h.directive hd (hb b hbody)
      · split
        · exact h.instruction enc b.head b.args b.args
        · exact .pure h
  | @operands labels head args args' hkind =>
    have hi : ∀ args, StatementBody.isInstruction ⟨head, args⟩ := fun _ => beq_iff_eq.mpr hkind
    simp only [StatementBody.not_isDirective (hi _), hi, Bool.false_eq_true, if_false, if_true]
    exact h.instruction enc head args args'

theorem prepareAt (h : Parallel env env') {file : String} {number : Int} {x y : String}
    (hxy : LinesParallel file number x y) :
    (env.prepareAt file number x).Agree (env'.prepareAt file number y) Parallel := by
  unfold Environment.prepareAt
  rw [hxy.wellFormed]
  split
  · exact h.prepare hxy.statement
  · exact .pure h

theorem line (h : Parallel env env') (enc : Encoder) {file : String} {number : Int} {x y : String}
    (hxy : LinesParallel file number x y) :
    (env.line enc file number x).Agree (env'.line enc file number y) Parallel := by
  unfold Environment.line
  refine .reported (.reported ?_)
  obtain ⟨hok, hs⟩ := hxy
  unfold statementAt at hok hs
  dsimp only
  rw [hok]
  split
  · rw [statement_eq, statement_eq]
    exact .andThen (h.prepare hs) fun _ _ h₁ => h₁.body enc hs
  · exact .pure h

theorem lines (h : Parallel env env') (enc : Encoder) {file : String} {number : Int}
    {xs ys : List String} (hxy : TextsParallel file number xs ys) :
    (lines enc file number xs env).Agree (lines enc file number ys env') Parallel := by
  induction xs generalizing number ys env env' with
  | nil =>
    cases List.length_eq_zero_iff.mp hxy.length.symm
    exact .pure h
  | cons x xs ih =>
    obtain ⟨y, ys, rfl⟩ := List.exists_cons_of_length_eq_add_one hxy.length.symm
    have hline := hxy.lines 0 x y rfl rfl
    rw [Nat.cast_zero, Int.add_zero] at hline
    exact .andThen (h.line enc hline) fun _ _ h₁ => ih h₁ hxy.tail

theorem initial (name : String) (order : ByteOrder) :
    Parallel (.initial { name, order }) (.initial { name, order }) :=
  have hplain : Plain { name, order } := ⟨fun _ h => (nomatch h), fun _ _ => rfl⟩
  ⟨rfl, rfl, List.mem_map_of_mem (StandardSection.mem_all .text), hplain, hplain⟩

end Environment.Parallel

namespace Settings

variable {s : Settings} {name : String} {xs ys : List String}

/-- Where a line of a text is assembled: in which section, and at which offset in it. That is behind
all lines before it and behind the alignment that the line needs itself. -/
def LaidAt (s : Settings) (name : String) (texts : List String) (k : Nat) (n : Name) (o : Nat) :
    Prop :=
  ∃ text env env', texts[k]? = some text ∧
    (Environment.lines s.encoder name 1 (texts.take k)
      (.initial { name, order := s.order })).Gives env ∧
    (env.prepareAt name (1 + k) text).Gives env' ∧ env'.current = n ∧ env'.module.offset n = o

theorem LaidAt.unique {texts : List String} {k o o' : Nat} {n n' : Name}
    (h : s.LaidAt name texts k n o) (h' : s.LaidAt name texts k n' o') : n = n' ∧ o = o' := by
  obtain ⟨text, env, env₁, ht, he, hp, rfl, rfl⟩ := h
  obtain ⟨text', env', env₁', ht', he', hp', rfl, rfl⟩ := h'
  cases ht.symm.trans ht'
  cases he.unique he'
  cases hp.unique hp'
  exact ⟨rfl, rfl⟩

theorem laidAt_of_parallel (h : TextsParallel name 1 xs ys) {k : Nat} (hk : k < xs.length) :
    ∃ n o, s.LaidAt name xs k n o ∧ s.LaidAt name ys k n o := by
  have hopen : (Environment.initial { name, order := s.order }).Open := open_new name s.order
  have hk' : k < ys.length := h.length ▸ hk
  have hx := List.getElem?_eq_getElem hk
  have hy := List.getElem?_eq_getElem hk'
  obtain ⟨r, hr, hr'⟩ := hopen.completes_lines s.encoder name 1 (xs.take k)
  obtain ⟨t, ht, ht'⟩ := hopen.completes_lines s.encoder name 1 (ys.take k)
  obtain ⟨env, henv⟩ := hr'.exists_prepareAt name (1 + k) xs[k]
  obtain ⟨env', henv'⟩ := ht'.exists_prepareAt name (1 + k) ys[k]
  have hbefore : Environment.Parallel r.value t.value :=
    (Environment.Parallel.initial name s.order).lines s.encoder (h.take k) _ _ hr ht
  have hplace : Environment.Parallel env env' :=
    (hbefore.prepareAt (h.lines k _ _ hx hy)).gives henv henv'
  refine ⟨env.current, env.module.offset env.current, ?_, ?_⟩
  · exact ⟨xs[k], _, env, hx, .ofOk hr, henv, rfl, rfl⟩
  · exact ⟨ys[k], _, env', hy, .ofOk ht, henv', hplace.current.symm, (hplace.offset _).symm⟩

theorem assembled_of_parallel (h : TextsParallel name 1 xs ys) :
    ∃ r t, assembleLines s name xs = .ok r ∧ assembleLines s name ys = .ok t ∧
      (∀ n, (r.value.section? n).map Section.length = (t.value.section? n).map Section.length) ∧
      ∀ n type a, r.value.Defines n type a ↔ t.value.Defines n type a := by
  have hopen : (Environment.initial { name, order := s.order }).Open := open_new name s.order
  have hassembled : ∀ texts, ∃ r, assembleLines s name texts = .ok r := by
    intro texts
    obtain ⟨out, hout, -⟩ := hopen.completes_lines s.encoder name 1 texts
    unfold assembleLines
    rw [hout]
    exact ⟨_, rfl⟩
  obtain ⟨r, hr⟩ := hassembled xs
  obtain ⟨t, ht⟩ := hassembled ys
  obtain ⟨outr, houtr, -, hkeepsr, hsymbolsr⟩ := assembleLines_eq_ok hr
  obtain ⟨outt, houtt, -, hkeepst, hsymbolst⟩ := assembleLines_eq_ok ht
  have houtline := ((Environment.Parallel.initial name s.order).lines s.encoder h _ _ houtr
    houtt).outline
  refine ⟨r, t, hr, ht, fun n => ?_, fun n type a => ?_⟩
  · rw [hkeepsr.section?, hkeepst.section?]
    exact map_length_of_outline houtline n
  · have hdefinition : r.value.definition? n = t.value.definition? n := by
      rw [definition?, definition?, symbol?, symbol?, hsymbolsr, hsymbolst]
      exact congrFun (congrArg Outline.definition? houtline) n
    rw [← definition?_eq_some, ← definition?_eq_some, hdefinition]

end Settings

theorem getElem?_exchanged {α : Type} {xs ys : List α} {k : Nat} (hk : k ≠ xs.length) (a b : α) :
    (xs ++ b :: ys)[k]? = (xs ++ a :: ys)[k]? := by
  rcases Nat.lt_or_gt_of_ne hk with hlt | hgt
  · rw [List.getElem?_append_left hlt, List.getElem?_append_left hlt]
  · obtain ⟨j, hj⟩ := Nat.exists_eq_add_of_lt hgt
    have hindex : k - xs.length = j + 1 := by omega
    rw [List.getElem?_append_right hgt.le, List.getElem?_append_right hgt.le, hindex]
    rfl

/-- Layout does not depend on the operands of an instruction. If those of one line are exchanged,
for well-formed ones or not, then each section ends up as long as before, each line stays in its
place, and each symbol stays where it is defined. Only standard sections may be switched to by
name, since what operands mention could be the name of another section. -/
theorem layout_independent_of_operands (s : Settings) {name line line' : String}
    {pre post : List String}
    (hnames : ∀ x ∈ (pre ++ line :: post).zipIdx, ∀ b ∈ (statementAt name (1 + x.2) x.1).1.body,
      b.NamesStandard)
    {labels rest rest' : List Token} {head : Token} (hlabels : ∀ t ∈ labels, t.kind = .label)
    (hhead : head.kind = .instruction)
    (hline : (tokenizeLine name (1 + pre.length) line).value.significant = labels ++ head :: rest)
    (hline' : (tokenizeLine name (1 + pre.length) line').value.significant =
      labels ++ head :: rest')
    (hrest : ∀ t ∈ rest, t.kind ≠ .unknown) (hrest' : ∀ t ∈ rest', t.kind ≠ .unknown) :
    ∃ r r', assembleLines s name (pre ++ line :: post) = .ok r ∧
      assembleLines s name (pre ++ line' :: post) = .ok r' ∧
      (∀ n, (r.value.section? n).map Section.length = (r'.value.section? n).map Section.length) ∧
      (∀ k < (pre ++ line :: post).length, ∃ n o,
        s.LaidAt name (pre ++ line :: post) k n o ∧ s.LaidAt name (pre ++ line' :: post) k n o) ∧
      ∀ n type a, r.value.Defines n type a ↔ r'.value.Defines n type a := by
  have hparallel : TextsParallel name 1 (pre ++ line :: post) (pre ++ line' :: post) := by
    refine ⟨by simp, fun k x y hx hy => ?_⟩
    -- The line that is exchanged has the same head and labels, and all other lines are the same.
    by_cases hk : k = pre.length
    · subst hk
      rw [List.getElem?_append_right (Nat.le_refl _), Nat.sub_self] at hx hy
      cases hx
      cases hy
      have hstatement := statementAt_of_instruction hlabels hhead hrest hline
      have hstatement' := statementAt_of_instruction hlabels hhead hrest' hline'
      refine ⟨by rw [hstatement, hstatement'], ?_⟩
      rw [hstatement, hstatement']
      exact .operands labels _ _ hhead
    · rw [getElem?_exchanged hk line line', hx] at hy
      cases hy
      exact ⟨rfl, .same (hnames (x, k) (List.mem_zipIdx_iff_getElem?.mpr hx))⟩
  obtain ⟨r, r', hr, hr', hlength, hdefines⟩ := s.assembled_of_parallel hparallel
  exact ⟨r, r', hr, hr', hlength, fun k hk => s.laidAt_of_parallel hparallel hk, hdefines⟩

def beforeCall : List String := ["main: nop"]

def afterCall : List String := ["next: addiu $t0, $zero, 1", ".section .data", "ready: .word next"]

theorem layout_independent_of_operands_call : ∃ r r',
    assembleLines {} "a.s" (beforeCall ++ "call: jal later" :: afterCall) = .ok r ∧
    assembleLines {} "a.s" (beforeCall ++ "call: jal 3(, ready" :: afterCall) = .ok r' ∧
    ∀ n, (r.value.section? n).map Section.length = (r'.value.section? n).map Section.length := by
  have hnames : ∀ x ∈ (beforeCall ++ "call: jal later" :: afterCall).zipIdx,
      ∀ b ∈ (statementAt "a.s" (1 + x.2) x.1).1.body, b.NamesStandard := by
    decide +kernel
  have hline : (tokenizeLine "a.s" (1 + beforeCall.length) "call: jal later").value.significant =
      [⟨"call", .label, ⟨"a.s", 2, 0⟩⟩] ++ ⟨"jal", .instruction, ⟨"a.s", 2, 6⟩⟩ ::
        [⟨"later", .identifier, ⟨"a.s", 2, 10⟩⟩] := by
    decide +kernel
  have hline' : (tokenizeLine "a.s" (1 + beforeCall.length) "call: jal 3(, ready").value.significant =
      [⟨"call", .label, ⟨"a.s", 2, 0⟩⟩] ++ ⟨"jal", .instruction, ⟨"a.s", 2, 6⟩⟩ ::
        [⟨"3", .immediate, ⟨"a.s", 2, 10⟩⟩, ⟨"(", .lparen, ⟨"a.s", 2, 11⟩⟩,
          ⟨",", .comma, ⟨"a.s", 2, 12⟩⟩, ⟨"ready", .identifier, ⟨"a.s", 2, 14⟩⟩] := by
    decide +kernel
  obtain ⟨r, r', hr, hr', hlength, -⟩ := layout_independent_of_operands {} hnames (by decide) rfl
    hline hline' (by decide) (by decide)
  exact ⟨r, r', hr, hr', hlength⟩

end MipsToolchain
