import MipsToolchain.Proofs.Assembly.Occurrences
import MipsToolchain.Proofs.Link.Deferral
import MipsToolchain.Proofs.Link.Lookup

namespace MipsToolchain

open Diagnostic Guarded MipsToolchain.Module

/-- Whether words hold an address in the way of a statement: as a word of data, in the two halves of
an instruction pair, or in the field of a jump. -/
inductive StatementBody.HoldsAddress (b : StatementBody) (z : Int64) : List UInt32 → Prop
  | word : b.name = ".word" → HoldsAddress b z [Isa.lowWord z]
  | load {upper lower : UInt32} : b.name = "la" → joined upper lower = (Isa.lowWord z).toNat →
      HoldsAddress b z [upper, lower]
  | jump {w : UInt32} : b.name = "j" ∨ b.name = "jal" → z % 4 = 0 →
      (w.toNat % 0x4000000 : Int) = z.toInt / 4 % 0x4000000 → HoldsAddress b z [w]

theorem joined_store (upper lower : UInt32) (z : Int64) :
    joined (RelocationKind.high16.store upper z) (RelocationKind.low16.store lower z) =
      (Isa.lowWord z).toNat := by
  have hhigh := Isa.toNat_store_half (.inl rfl) upper z
  have hlow := Isa.toNat_store_half (.inr (.inl rfl)) lower z
  have hword := Isa.toNat_lowWord z
  dsimp only [RelocationKind.field] at hhigh hlow
  rw [Isa.toInt_shiftRight_sixteen] at hhigh
  unfold joined
  omega

theorem getElem?_of_operand {ws us : List EncodedWord} {first count : Nat}
    (hus : (ws.drop first).take count = us) {j : Nat} {w : EncodedWord} (hw : us[j]? = some w) :
    ws[first + j]? = some w := by
  rw [← hus, List.getElem?_take] at hw
  split at hw
  · rwa [List.getElem?_drop] at hw
  · cases hw

theorem Environment.add_four_wordPlace (env : Environment) (k : Nat) :
    (env.wordPlace k).add 4 = env.wordPlace (k + 1) :=
  EncodedWord.add_four_relative _ _

section Linked

variable {s : Settings} {files : List Source.File} {ms : List Module} {p : Program} {i : Nat}
  {f : Source.File} {m : Module} {b : StatementBody} {env : Environment} {ws us : List EncodedWord}
  {first count : Nat}

theorem Linked.waiting (h : Linked s files ms p) (hf : files[i]? = some f) (hm : ms[i]? = some m)
    (hkeeps : env.Keeps ws m) (hus : (ws.drop first).take count = us) {j : Nat}
    {kind : RelocationKind} (hk : kind ≠ .pcrel16) {w : UInt32} {n : Name} {k : Int64}
    (hw : us[j]? = some (.waiting kind w (env.wordPlace (first + j)) n k)) :
    ∃ t w' pc,
      resolveReference (Layout.ofModules s.link ms) p.globals i m
        ⟨env.wordPlace (first + j), n, kind, k⟩ = .ok (some t) ∧
      (m.relocatedWord ⟨env.wordPlace (first + j), n, kind, k⟩ (kind.store w k) t).run =
        .ok (.ok w') ∧
      p.WordAt (Layout.ofModules s.link ms) s.order i (env.wordPlace (first + j)) w' pc := by
  obtain ⟨ds, hl⟩ := h.linked
  obtain ⟨horder, hdisjoint, hpaired⟩ := h.ordered hf hm
  have hmem := getElem?_of_operand hus hw
  have hword := hkeeps.word (h.sized m (List.mem_of_getElem? hm)) hmem
  obtain ⟨out, start, t, delta, w₀, w', hpart, ht, hdelta, hw₀, hrel, hw'⟩ :=
    link_reference hl rfl hm hdisjoint ((hkeeps _ _ hmem).2 _ rfl) fun _ => hpaired
  cases Option.some.inj (hword.symm.trans hw₀)
  rw [relocationDelta_eq hdelta hk] at hrel
  exact ⟨t, w', _, ht, hrel, horder ▸ hpart.wordAt hw'⟩

/-- The halves of an address are about the same place, and the upper one sees the lower one as it was
assembled. -/
theorem Linked.waiting_halves (h : Linked s files ms p) (hf : files[i]? = some f)
    (hm : ms[i]? = some m) (hkeeps : env.Keeps ws m) {upper lower : UInt32} {n : Name} {k : Int64}
    (hus : (ws.drop first).take count =
      [.waiting .high16 upper (env.wordPlace first) n k,
        .waiting .low16 lower (env.wordPlace (first + 1)) n k]) :
    ∃ t pc pc',
      resolveReference (Layout.ofModules s.link ms) p.globals i m
        ⟨env.wordPlace first, n, .high16, k⟩ = .ok (some t) ∧
      p.WordAt (Layout.ofModules s.link ms) s.order i (env.wordPlace first)
        (RelocationKind.high16.store upper (k + t)) pc ∧
      p.WordAt (Layout.ofModules s.link ms) s.order i (env.wordPlace (first + 1))
        (RelocationKind.low16.store lower (k + t)) pc' := by
  obtain ⟨t, u, pc, ht, hupper, hat⟩ := h.waiting hf hm hkeeps hus (j := 0) (by simp) rfl
  obtain ⟨t', l, pc', ht', hlower, hat'⟩ := h.waiting hf hm hkeeps hus (j := 1) (by simp) rfl
  have hsame := ht'.symm.trans ((resolveReference_congr rfl).trans ht)
  cases Option.some.inj (Except.ok.inj hsame)
  have hread : (m.readWord ((env.wordPlace (first + 0)).add 4)).run =
      .ok (.ok (RelocationKind.low16.store lower k)) := by
    rw [env.add_four_wordPlace]
    have hlow := hkeeps _ _ (getElem?_of_operand hus (j := 1) rfl)
    exact readWord_of_wordIn? hlow.1 (h.sized m (List.mem_of_getElem? hm) _)
  cases hlower.symm.trans (relocatedWord_store (.inr rfl) lower k)
  cases hupper.symm.trans (relocatedWord_store_high rfl upper hread)
  exact ⟨_, pc, pc', ht, hat, hat'⟩

/-- What linking makes of the words for the value of an operand. They hold the address of what the
value is relative to, plus its distance from there. -/
theorem Linked.holds (h : Linked s files ms p) (hf : files[i]? = some f) (hm : ms[i]? = some m)
    {form : WordForm} (htakes : b.Takes form) (hkeeps : env.Keeps ws m) {v : ExprValue}
    (hwords : form.words (env.wordPlace first) v = some ((ws.drop first).take count)) :
    ∃ t vs, p.globals.Found (Layout.ofModules s.link ms) i m v.target t ∧
      b.HoldsAddress (v.number + t) vs ∧ vs.length = form.count ∧
      ∀ j w, vs[j]? = some w →
        ∃ pc, p.WordAt (Layout.ofModules s.link ms) s.order i (env.wordPlace (first + j)) w pc := by
  cases htakes with
  | @word w _ hname =>
    have hus := (Option.some.inj hwords).symm
    obtain ⟨t, w', pc, ht, hrel, hat⟩ := h.waiting hf hm hkeeps hus (j := 0) (by simp) rfl
    cases hrel.symm.trans (relocatedWord_store (.inl rfl) w v.number)
    refine ⟨t, _, (h.found hm).mp ht, .word hname, rfl, fun j w hw => ?_⟩
    cases j <;> cases hw
    exact ⟨pc, hat⟩
  | @load upper lower _ hname =>
    have hus := (Option.some.inj hwords).symm
    rw [Environment.add_four_wordPlace] at hus
    obtain ⟨t, pc, pc', ht, hat, hat'⟩ := h.waiting_halves hf hm hkeeps hus
    refine ⟨t, _, (h.found hm).mp ht, .load hname (joined_store upper lower _), rfl, fun j w hw => ?_⟩
    rcases j with - | - | j <;> cases hw
    · exact ⟨pc, hat⟩
    · exact ⟨pc', hat'⟩
  | @jump w _ hname =>
    rw [WordForm.words] at hwords
    split at hwords
    · next hmod =>
      have hus := (Option.some.inj hwords).symm
      obtain ⟨t, w', pc, ht, hrel, hat⟩ := h.waiting hf hm hkeeps hus (j := 0) (by simp) rfl
      rw [relocatedWord_store_jump rfl w hmod] at hrel
      split at hrel
      · next hmod' =>
        cases hrel
        refine ⟨t, [RelocationKind.jump26.store w (v.number + t)], (h.found hm).mp ht,
          .jump hname ?_ ?_, rfl, fun j w hw => ?_⟩
        · exact (Isa.mod_four_add_iff hmod').mpr hmod
        · have hfield := Isa.toNat_store_jump w (v.number + t)
          omega
        · cases j <;> cases hw
          exact ⟨pc, hat⟩
      · cases hrel
    · cases hwords

theorem Linked.relocatable (h : Linked s files ms p) (hf : files[i]? = some f)
    (hm : ms[i]? = some m) {n : Name} {t : Symbol} (ht : m.symbol? n = some t)
    (hlabel : ∀ a, t.address = some a → t.type = .label) (hn : n.isEmpty = false)
    (hleads : env.LeadsTo m) {a : Address} (ha : env.resolve n = some a) :
    a.isRelocatable ∧ (t.address = some a ∨ m.isSectionName n) := by
  rcases hleads.resolve ha with ⟨t', ht', haddress⟩ | ⟨hsection, rfl⟩
  · cases ht.symm.trans ht'
    obtain ⟨r, hfile, he, rfl⟩ := h.file hf hm
    obtain ⟨-, -, -, hsound⟩ := assembleLines_sound hfile he
    have hmem := List.mem_of_find?_eq_some ht
    exact ⟨(hsound t hmem).labelled (hlabel a haddress) a haddress, .inl haddress⟩
  · exact ⟨by simp [Address.isRelocatable, Address.relative, hn], .inr hsection⟩

theorem Linked.global (h : Linked s files ms p) (hm : ms[i]? = some m) {n : Name} {t : Symbol}
    (ht : m.symbol? n = some t) (hb : t.binding = .global) {a : Address} (ha : t.address = some a)
    {x : Int64} (hx : (Layout.ofModules s.link ms).resolve i a = .ok x) :
    x = p.globals.addressOf n ∧ (p.globals.get? n).isSome := by
  obtain ⟨ds, hassembled, he⟩ := h.assembled
  obtain ⟨ds', hl⟩ := h.linked
  obtain ⟨gs, out, hlinking⟩ := linking_of_link hl rfl
  have hbindings : ∀ m ∈ ms, ∀ u ∈ m.symbols, u.binding.isAssigned := by
    intro m' hm' u hu
    obtain ⟨j, hj⟩ := List.mem_iff_getElem?.mp hm'
    obtain ⟨f', a', -, hfile, hea, rfl⟩ := assembled_module hassembled he hj
    obtain ⟨-, -, -, hsound⟩ := assembleLines_sound hfile hea
    exact (hsound u hu).binding
  have hname : t.name = n := by simpa using List.find?_some ht
  have hquiet := hlinking.quiet gs.diagnostics (by simp)
  have herr := errorCount_le_promoteIf s.strict gs.diagnostics
  obtain ⟨g, hget, -, hg⟩ := Globals.ofModules_enters hbindings hm (List.mem_of_find?_eq_some ht) ha
    hb gs hlinking.globals (by omega)
  cases hx.symm.trans hg
  rw [← hname, hlinking.table, Globals.addressOf, hget]
  exact ⟨rfl, rfl⟩

theorem isEmpty_of_operand {enc : Encoder} {file : String} {number : Int} {texts : List String}
    {env₀ : Environment} (hb : Environment.Reaches enc file number texts env₀ b env) {e : Expr}
    (ho : b.HasOperand enc e first count) {n : String} (hn : n ∈ e.names) :
    (RawText.ofString n).isEmpty = false := by
  obtain ⟨arg, harg, t, ht, -, rfl⟩ := ho.namedIn hn
  exact Environment.isEmpty_ofString (hb.hasTexts arg harg t ht).nonempty

theorem Layout.resolve_relative {l : Layout} {a : Address} (ha : a.isRelocatable) {t : Int64}
    (h : l.resolve i (.relative a.sectionName 0) = .ok t) : l.resolve i a = .ok (t + a.value) := by
  have hrel : (Address.relative a.sectionName 0).isRelocatable = true := ha
  obtain ⟨out, start, hout, hstart, rfl⟩ := (resolve_eq_ok hrel).mp h
  refine (resolve_eq_ok ha).mpr ⟨out, start, hout, hstart, ?_⟩
  exact congrArg (· + a.value) (Int64.add_zero _).symm

/-- What the words of an operand hold that is at a distance from a name: the address that the name
had, or the one that linking finds where it had none. -/
theorem Linked.operand (h : Linked s files ms p) (hf : files[i]? = some f) (hm : ms[i]? = some m)
    {form : WordForm} (htakes : b.Takes form) (hleads : env.LeadsTo m) (hkeeps : env.Keeps ws m)
    {n : Name} {k : Int64} {v : ExprValue}
    (hv : env.resolve n = none ∧ v = .deferred (env.wordPlace first) n k ∨
      ∃ a, env.resolve n = some a ∧ v = .settled a k)
    (ha : ∀ a, env.resolve n = some a → a.isRelocatable)
    (hwords : v.isRelocatable →
      form.words (env.wordPlace first) v = some ((ws.drop first).take count)) :
    ∃ x vs, b.HoldsAddress (k + x) vs ∧ vs.length = form.count ∧
      (∀ j w, vs[j]? = some w → ∃ pc,
        p.WordAt (Layout.ofModules s.link ms) s.order i (env.wordPlace (first + j)) w pc) ∧
      (∀ a, env.resolve n = some a → (Layout.ofModules s.link ms).resolve i a = .ok x) ∧
      (env.resolve n = none → p.globals.Found (Layout.ofModules s.link ms) i m n x) := by
  rcases hv with ⟨hnone, rfl⟩ | ⟨a, hsome, rfl⟩
  · obtain ⟨x, vs, hfound, hholds, hlen, hat⟩ := h.holds hf hm htakes hkeeps (hwords rfl)
    exact ⟨x, vs, hholds, hlen, hat, by simp [hnone], fun _ => hfound⟩
  · have hrel := ha a hsome
    have hsettled : (ExprValue.settled a k).isRelocatable := by
      rw [ExprValue.isRelocatable, ExprValue.settled, Address.isRelocatable_add, hrel]
      rfl
    obtain ⟨start, vs, hfound, hholds, hlen, hat⟩ :=
      h.holds hf hm htakes hkeeps (hwords hsettled)
    have htarget : (ExprValue.settled a k).target = a.sectionName := rfl
    rw [Globals.Found, htarget, if_pos (hleads.isSectionName hsome hrel)] at hfound
    have hsum : (ExprValue.settled a k).number + start = k + (start + a.value) :=
      (Slot.add_base k start a.value).symm
    refine ⟨start + a.value, vs, hsum ▸ hholds, hlen, hat, ?_, by simp [hsome]⟩
    rintro a' ha'
    cases hsome.symm.trans ha'
    exact Layout.resolve_relative hrel hfound

/-- What the words of an operand that names an exported label hold in a linked program: the address
that all modules share, or zero for a weak name without definition. There are two exceptions. A weak
label that was defined but not weak yet where it is used counts as its own definition. And if the
module has a section of that name then this is taken where the label was not known. -/
theorem linked_occurrence_holds (h : Linked s files ms p) (hf : files[i]? = some f)
    (hm : ms[i]? = some m) {n : String} {t : Symbol} (ht : m.symbol? n = some t)
    (hx : t.isExported) (hlabel : ∀ a, t.address = some a → t.type = .label)
    (hb : TextReaches s f.name f.lines b env) {e : Expr} (ho : b.HasOperand s.encoder e first count)
    (hn : n ∈ e.names) (hname : b.isInstruction → b.name = "la" ∨ b.name = "j" ∨ b.name = "jal") :
    ∃ k x vs, e.Offsets ⟨env.resolve, env.wordPlace first⟩ n k ∧ b.HoldsAddress (k + x) vs ∧
      vs.length = count ∧
      (∀ j w, vs[j]? = some w → ∃ pc,
        p.WordAt (Layout.ofModules s.link ms) s.order i (env.wordPlace (first + j)) w pc) ∧
      (∀ a, env.resolve n = some a → (Layout.ofModules s.link ms).resolve i a = .ok x ∧
        (t.address = some a ∨ m.isSectionName n)) ∧
      (env.resolve n = none → p.globals.Found (Layout.ofModules s.link ms) i m n x) ∧
      (m.isSectionName n = false → t.binding = .global ∨ env.resolve n = none →
        x = p.globals.addressOf n ∧ (p.globals.get? n = none → t.binding = .weak)) := by
  obtain ⟨r, hfile, he, hr⟩ := h.file hf hm
  have hkind : b.isInstruction ∨ b.isDirective ∧ b.name = ".word" := by
    cases ho with
    | word hd hword => exact .inr ⟨hd, hword⟩
    | instruction hi => exact .inl hi
  obtain ⟨hleads, ws, hws, hkeeps⟩ := assembleLines_stores hfile he hb hkind
  rw [← hr] at hleads hkeeps
  have hempty := isEmpty_of_operand hb ho hn
  have hrel := fun a ha => h.relocatable hf hm ht hlabel hempty hleads (a := a) ha
  obtain ⟨v, form, hv, htakes, hcount, hwords⟩ := hws.form ho hname
  obtain ⟨k, hoffsets, hvalue⟩ := Expr.exists_offsets hn hv fun a ha => (hrel a ha).1
  obtain ⟨x, vs, hholds, hlen, hat, hsettled, hfound⟩ :=
    h.operand hf hm htakes hleads hkeeps hvalue (fun a ha => (hrel a ha).1) hwords
  refine ⟨k, x, vs, hoffsets, hholds, hlen.trans hcount, hat,
    fun a ha => ⟨hsettled a ha, (hrel a ha).2⟩, hfound, fun hsection hbinding => ?_⟩
  cases hresolve : env.resolve n with
  | none =>
    have hmeans := hfound hresolve
    rw [Globals.Found, if_neg (by simpa using hsection)] at hmeans
    exact hmeans.addressOf ht hx
  | some a =>
    -- Without conflicts a global label has a single definition, so the known address is the shared one.
    have hown := (hrel a hresolve).2.resolve_right (by simp [hsection])
    have hglobal := hbinding.resolve_right (by simp [hresolve])
    obtain ⟨hshared, hsome⟩ := h.global hm ht hglobal hown (hsettled a hresolve)
    exact ⟨hshared, fun hnone => by rw [hnone] at hsome; cases hsome⟩

end Linked

def lateWeak : Source.File := ⟨"a.s", ["main: nop", "back: jal main", ".weak main"]⟩

def override : Source.File := ⟨"c.s", [".globl main", "main: jr $ra"]⟩

theorem exists_lateWeak_reaches : ∃ b env e, TextReaches {} lateWeak.name lateWeak.lines b env ∧
    b.name = "jal" ∧ b.HasOperand (Settings.encoder {}) e 0 1 ∧ "main" ∈ e.names ∧
    env.resolve "main" = some (.relative ".text" 0) := by
  let parsed := (Statement.parse (tokenizeLine "a.s" 2 "back: jal main").value).value
  -- The first line defines the label, and the second one is read in the state behind it.
  have hparsed : parsed.2 && parsed.1.body.any fun b => b.isInstruction && b.name == "jal" &&
      ((Settings.encoder {}).recognise b.head).value.any fun m => m.count == 1 &&
        (Encoder.parse m b.head b.args).value.any fun q => q.operands.any fun o =>
          o.form.expr?.any fun e => e.names.contains "main" := by
    decide +kernel
  have hstate : (Environment.lines (Settings.encoder {}) "a.s" 1 ["main: nop"]
      (.initial { name := "a.s", order := .big })).toOption.any fun r =>
        (r.value.prepare parsed.1).toOption.any fun r' =>
          r'.value.resolve "main" == some (.relative ".text" 0) := by
    decide +kernel
  obtain ⟨r, hr, hstate⟩ := (Option.any_eq_true _ _).mp hstate
  obtain ⟨r', hr', hstate⟩ := (Option.any_eq_true _ _).mp hstate
  obtain ⟨hok, hbody⟩ := Bool.and_eq_true_iff.mp hparsed
  obtain ⟨b, hb, hbody⟩ := (Option.any_eq_true _ _).mp hbody
  simp only [Bool.and_eq_true, beq_iff_eq] at hbody hstate
  obtain ⟨⟨hi, hname⟩, hbody⟩ := hbody
  obtain ⟨m, hm, hbody⟩ := (Option.any_eq_true _ _).mp hbody
  obtain ⟨hc, hbody⟩ := Bool.and_eq_true_iff.mp hbody
  obtain ⟨q, hq, hbody⟩ := (Option.any_eq_true _ _).mp hbody
  obtain ⟨o, ho, hbody⟩ := List.any_eq_true.mp hbody
  obtain ⟨e, he, hn⟩ := (Option.any_eq_true _ _).mp hbody
  have hreaches : TextReaches {} lateWeak.name lateWeak.lines b r'.value :=
    Environment.reaches_append ["main: nop"] (.ofOk (except_toOption_eq_some.mp hr))
      (Prod.ext rfl hok) hb (.ofOk (except_toOption_eq_some.mp hr'))
  have hoperand := StatementBody.HasOperand.instruction hi hm hq ho he
  rw [beq_iff_eq.mp hc] at hoperand
  exact ⟨b, r'.value, e, hreaches, hname, hoperand, by simpa using hn, hstate⟩

theorem linked_lateWeak_holds : ∃ ms p m, ∃ t : Symbol, ∃ b env e k x vs,
    Linked {} [lateWeak, override] ms p ∧ ms[0]? = some m ∧ m.symbol? "main" = some t ∧
    t.binding = .weak ∧ TextReaches {} lateWeak.name lateWeak.lines b env ∧ b.name = "jal" ∧
    b.HasOperand (Settings.encoder {}) e 0 1 ∧ "main" ∈ e.names ∧
    e.Offsets ⟨env.resolve, env.wordPlace 0⟩ "main" k ∧ b.HoldsAddress (k + x) vs ∧
    (∀ j w, vs[j]? = some w → ∃ pc,
      p.WordAt (Layout.ofModules {} ms) .big 0 (env.wordPlace (0 + j)) w pc) ∧
    x = 0x400000 ∧ p.globals.addressOf "main" = 0x400008 := by
  have hbuild : (build {} [lateWeak, override]).any fun x => x.1.all isSized &&
      x.2.globals.addressOf "main" == 0x400008 && x.1[0]?.any fun m =>
        decide ((Layout.ofModules {} x.1).resolve 0 (.relative ".text" 0) = .ok 0x400000) &&
        (m.symbol? "main").any fun t => t.binding == .weak && t.type == .label := by
    decide +kernel
  obtain ⟨⟨ms, p⟩, hb, hx⟩ := (Option.any_eq_true _ _).mp hbuild
  simp only [Bool.and_eq_true, beq_iff_eq] at hx
  obtain ⟨⟨hsized, haddress⟩, hx⟩ := hx
  obtain ⟨m, hm, hx⟩ := (Option.any_eq_true _ _).mp hx
  simp only [Bool.and_eq_true, decide_eq_true_iff] at hx
  obtain ⟨hown, ht⟩ := hx
  obtain ⟨t, ht, hweak⟩ := (Option.any_eq_true _ _).mp ht
  simp only [Bool.and_eq_true, beq_iff_eq] at hweak
  have hlinked := linked_of_build hb hsized
  have hexported : t.isExported := by simp [Symbol.isExported, hweak.1]
  obtain ⟨b, env, e, hreaches, hname, hoperand, hn, hresolve⟩ := exists_lateWeak_reaches
  obtain ⟨k, x, vs, hoffsets, hholds, -, hat, hsettled, -⟩ :=
    linked_occurrence_holds hlinked (show [lateWeak, override][0]? = some lateWeak from rfl) hm ht
      hexported (fun _ _ => hweak.2) hreaches hoperand hn fun _ => .inr (.inr hname)
  refine ⟨ms, p, m, t, b, env, e, k, x, vs, hlinked, hm, ht, hweak.1, hreaches, hname, hoperand, hn,
    hoffsets, hholds, hat, ?_, haddress⟩
  exact Except.ok.inj ((hsettled _ hresolve).1.symm.trans hown)

end MipsToolchain
