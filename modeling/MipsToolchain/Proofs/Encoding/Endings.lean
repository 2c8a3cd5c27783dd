import MipsToolchain.Proofs.Encoding.Deferral
import MipsToolchain.Proofs.Encoding.Names

namespace MipsToolchain

open Guarded

theorem OperandForm.suits_register {f : OperandForm} {a : Isa.Argument} (h : f.suits a)
    (ha : a.isRegister) : f.expr? = none := by
  obtain ⟨r, rfl⟩ := eq_register_of_suits h ha
  rfl

theorem OperandForm.isRegister_of_suits {f : OperandForm} {a : Isa.Argument} (h : f.suits a)
    {e : Expr} (he : f.expr? = some e) : a.isRegister = false := by
  rw [← Bool.not_eq_true]
  intro ha
  cases he.symm.trans (suits_register h ha)

theorem Mnemonic.Known.register {m : Mnemonic} (h : m.Known) :
    ∀ a ∈ m.args.dropLast, a.isRegister := by
  cases m with
  | machine i => exact Isa.Instruction.register_pattern i h
  | pseudo q => exact Pseudo.register_pattern q h

namespace Encoder

theorem suits_parseOperands {t : Token} {number : Nat} {as : List Isa.Argument}
    {args : List (List Token)} {os : List SourceOperand} {hl : args.length = as.length}
    (h : (parseOperands t number as args hl).value = some os) :
    List.Forall₂ (fun a o => o.form.suits a) as os := by
  induction as generalizing args number os with
  | nil =>
    obtain rfl := List.length_eq_zero_iff.mp hl
    cases h
    exact .nil
  | cons a as ih =>
    match args, hl with
    | arg :: args, hl =>
      obtain ⟨o, ho, h⟩ := Option.bind_eq_some_iff.mp h
      obtain ⟨os', hos, rfl⟩ := Option.map_eq_some_iff.mp h
      exact .cons (parseOperand_eq_some ho).2 (ih hos)

theorem suits_parse {m : Mnemonic} {t : Token} {args : List (List Token)} {p : ParsedInstruction}
    (h : (parse m t args).value = some p) :
    List.Forall₂ (fun a o => o.form.suits a) m.args p.operands := by
  unfold parse at h
  split at h
  · obtain ⟨os, hos, rfl⟩ := Option.map_eq_some_iff.mp h
    exact suits_parseOperands hos
  · cases h

/-- An operand with an expression is the last one, as only registers stand in front of others. -/
theorem endsIn_of_parse {m : Mnemonic} (hm : m.Known) {t : Token} {args : List (List Token)}
    {p : ParsedInstruction} (hp : (parse m t args).value = some p) {o : SourceOperand}
    (ho : o ∈ p.operands) {e : Expr} (he : o.form.expr? = some e) : p.EndsIn e := by
  have hsuits := suits_parse hp
  have hmnemonic := mnemonic_parse hp
  obtain ⟨os, x, hos⟩ := (List.eq_nil_or_concat' p.operands).resolve_left (List.ne_nil_of_mem ho)
  have hlast := List.forall₂_reverse_iff.mpr hsuits
  rw [hos, List.reverse_append, List.reverse_singleton, List.singleton_append] at hlast
  obtain ⟨a, as, ha, has, hargs⟩ := List.forall₂_cons_right_iff.mp hlast
  have hargs : m.args = as.reverse ++ [a] := by
    rw [← List.reverse_reverse m.args, hargs, List.reverse_cons]
  have hfront : ∀ y ∈ os, y.form.expr? = none := by
    intro y hy
    obtain ⟨k, hk, rfl⟩ := List.mem_iff_getElem.mp (List.mem_reverse.mpr hy)
    have hk' : k < as.length := has.length_eq ▸ hk
    refine OperandForm.suits_register (has.get hk' hk) (hm.register _ ?_)
    rw [hargs, List.dropLast_concat]
    exact List.mem_reverse.mpr (List.getElem_mem hk')
  have hend : o = x := by
    rw [hos, List.mem_append, List.mem_singleton] at ho
    refine ho.resolve_left fun hmem => ?_
    cases (hfront o hmem).symm.trans he
  subst hend
  refine ⟨hmnemonic ▸ hm, ⟨a, ?_, OperandForm.isRegister_of_suits ha he⟩, ?_, os, o, hos, hfront, he⟩
  · rw [hmnemonic, hargs, List.getLast?_concat]
  · rw [hmnemonic, hsuits.length_eq]

theorem exists_value_of_encode {enc : Encoder} {ctx : EvalContext} {p : ParsedInstruction}
    {ws : List EncodedWord} (h : (enc.encode ctx p).Gives (ws, true)) {o : SourceOperand}
    (ho : o ∈ p.operands) {e : Expr} (he : o.form.expr? = some e) :
    ∃ v, (e.eval ctx).Gives (some v) := by
  obtain ⟨ds, h⟩ := h
  obtain ⟨vs, hvs, -, ⟨-, hval⟩ | ⟨values, -, -, hsome, -⟩⟩ := encode_eq_ok h
  · cases hval
  · have hvalues := hasValue_evaluateAll ctx p.operands vs hvs values hsome
    have hall : ∀ o ∈ p.operands, ∃ v, HasValue ctx o v :=
      forall_of_forall₂ hvalues.flip fun v _ o h => ⟨v, h⟩
    obtain ⟨v, hv⟩ := hall o ho
    exact ⟨v.value, hv.expression e he⟩

section Names

variable {enc : Encoder} {t : Token} {m : Mnemonic}

theorem recognise_load (hn : Text.lower t.text = "la") (h : (enc.recognise t).value = some m) :
    m = .pseudo (.load "la") := by
  have hunknown : enc.table.lookup "la" = .unknown := by
    have hnone : Isa.Instruction.ofName? "la" = none := by decide
    rw [Isa.Table.lookup, hnone]
  have hpseudo : Pseudo.ofName? "la" = some (.load "la") := by decide
  unfold recognise at h
  simp only [hn, hunknown, hpseudo] at h
  split at h
  · exact (Option.some.inj h).symm
  · cases h

theorem recognise_jump (hn : Text.lower t.text = "j" ∨ Text.lower t.text = "jal")
    (h : (enc.recognise t).value = some m) : m.args = [.target] := by
  have hlasting : ∃ i : Isa.Instruction, i.args = [.target] ∧
      enc.table.lookup (Text.lower t.text) = .found i := by
    rcases hn with hn | hn
    · obtain ⟨i, -, hargs, hfound⟩ := Isa.exists_lasting "j" [.target] (by decide)
      exact ⟨i, hargs, hn ▸ hfound enc.table⟩
    · obtain ⟨i, -, hargs, hfound⟩ := Isa.exists_lasting "jal" [.target] (by decide)
      exact ⟨i, hargs, hn ▸ hfound enc.table⟩
  obtain ⟨i, hargs, hfound⟩ := hlasting
  unfold recognise at h
  simp only [hfound] at h
  cases h
  exact hargs

end Names

end Encoder

namespace WordForm

variable {form : WordForm}

theorem eq_split_of_suits (h : form.Suits (some .immediate)) (hc : form.count = 2) :
    ∃ upper lower, form = .split upper lower := by
  cases form with
  | split upper lower => exact ⟨upper, lower, rfl⟩
  | single | jump => cases hc
  | shift | branch => cases h

theorem eq_jump_of_suits (h : form.Suits (some .target)) : ∃ w, form = .jump w := by
  cases form with
  | jump w => exact ⟨w, rfl⟩
  | single kind w =>
    cases kind with
    | absolute32 => cases h
    | low16 => simp [Suits] at h
    | high16 | jump26 | pcrel16 | unassigned => cases h
  | shift | split | branch => cases h

end WordForm

end MipsToolchain
