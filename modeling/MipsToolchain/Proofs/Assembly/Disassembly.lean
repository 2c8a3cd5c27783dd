import MipsToolchain.Assembly.Assemble
import MipsToolchain.Proofs.Encoding.Reassembly
import MipsToolchain.Proofs.Encoding.Steps

namespace MipsToolchain

open Diagnostic Guarded Isa

/-- A module of nothing but instructions. -/
def Module.ofText (name : String) (order : ByteOrder) (bytes : ByteArray) : Module :=
  { name, order,
    sections := [⟨StandardSection.text.name, StandardSection.text.flags, 0, 2, bytes⟩] }

def lineText (name : String) (operands : List String) : String :=
  if operands.isEmpty then name else name ++ " " ++ ", ".intercalate operands

theorem toList_lineText (name : String) (operands : List String) :
    (lineText name operands).toList = name.toList ++ if operands = [] then []
      else ' ' :: [',', ' '].intercalate (operands.map String.toList) := by
  have hcomma : ", ".toList = [',', ' '] := rfl
  have hblank : " ".toList = [' '] := rfl
  cases operands with
  | nil => exact (List.append_nil _).symm
  | cons o os =>
    rw [lineText, if_neg nofun, if_neg nofun, String.toList_append, String.toList_append,
      String.toList_intercalate, hcomma, hblank, List.append_assoc, List.singleton_append]

namespace Isa

theorem Instruction.name_pattern : ∀ i ∈ Instruction.all, Lexeme.isHead i.name ∧
    Lexeme.headKind i.name = .instruction ∧ Text.lower i.name = i.name ∧
      Instruction.ofName? i.name = some i := by
  decide +kernel

theorem Table.decode_eq_some {t : Table} {w : UInt32} {d : Decoded} (h : t.decode w = some d) :
    d.instruction ∈ t.instructions ∧ d.operands = d.instruction.decode w := by
  obtain ⟨hi, -, ho⟩ := decode_eq_some_iff.mp h
  exact ⟨hi, ho⟩

/-- No operation is a shift, in every version. -/
theorem Table.decode_zero (t : Table) : ∃ d, t.decode 0 = some d ∧ d.encode = .ok 0 := by
  obtain ⟨v⟩ := t
  cases v <;> exact ⟨_, rfl, rfl⟩

theorem Table.disassemble_of_decode {t : Table} {w : UInt32} (hw : w ≠ 0) {d : Decoded}
    (h : t.decode w = some d) (pc : UInt32) :
    t.disassemble w pc = lineText d.instruction.name
      (d.instruction.args.map fun a => a.renderAt pc (a.decode w)) := by
  rw [Table.disassemble, if_neg hw, h]
  dsimp only
  rw [(Table.decode_eq_some h).2, Instruction.decode, List.zipWith_map_right, List.zipWith_self]
  rfl

theorem Table.disassemble_of_none {t : Table} {w : UInt32} (h : t.decode w = none)
    (pc : UInt32) : t.disassemble w pc = lineText ".word" ["0x" ++ Text.hexWord w] := by
  have hw : w ≠ 0 := by
    rintro rfl
    obtain ⟨d, hd, -⟩ := t.decode_zero
    cases h.symm.trans hd
  have hsplit : ".word 0x" = ".word" ++ " " ++ "0x" := rfl
  rw [Table.disassemble, if_neg hw, h]
  dsimp only
  rw [hsplit, String.append_assoc]
  rfl

end Isa

theorem Isa.Table.lookup_name {t : Table} {i : Instruction} (hi : i ∈ t.instructions) :
    t.lookup i.name = .found i := by
  obtain ⟨hi, havailable⟩ := List.mem_filter.mp hi
  rw [Table.lookup, (Instruction.name_pattern i hi).2.2.2]
  exact if_pos havailable

theorem Encoder.recognise_machine {enc : Encoder} {i : Instruction} (hi : i ∈ enc.table.instructions)
    {t : Token} (ht : t.text = i.name) : enc.recognise t = pure (some (.machine i)) := by
  obtain ⟨-, -, hlower, -⟩ := Instruction.name_pattern i (List.mem_filter.mp hi).1
  rw [Encoder.recognise, ht, hlower, Table.lookup_name hi]

def Pseudo.nop : Pseudo := ⟨"nop", [], 1, [("sll", [zero, zero, .constant 0])]⟩

def Isa.Instruction.sll : Instruction := .ofFunction "sll" 0x00 [.rd, .rt, .shamt]

theorem Isa.Table.sll_mem (t : Table) : Instruction.sll ∈ t.instructions := by
  obtain ⟨v⟩ := t
  have havailable : Instruction.sll.availableIn v := by cases v <;> rfl
  exact List.mem_filter.mpr ⟨by decide, havailable⟩

def Encoder.nopStep : MachineStep :=
  ⟨.sll, [{ register := .zero }, { register := .zero }, { value := .constant 0 }]⟩

theorem Encoder.delivers_nop (enc : Encoder) (ctx : EvalContext) :
    (enc.encode ctx ⟨.pseudo Pseudo.nop, []⟩).Delivers ([⟨0, none⟩], true) := by
  have hlookup : enc.table.lookup "sll" = .found .sll := Table.lookup_name enc.table.sll_mem
  have hword : Instruction.sll.encode [.ofRegister .zero, .ofRegister .zero, .ofValue 0] = .ok 0 := by
    decide
  have hexpand : enc.expand (.pseudo Pseudo.nop) [] = .ok [nopStep] := by
    refine Encoder.expand_pseudo_eq_ok.mpr ⟨?_, rfl⟩
    change [_].mapM (expandStep enc.table []) = _
    rw [List.mapM_cons, expandStep, hlookup]
    rfl
  have hfields : (encodeFields ctx.location nopStep.instruction.args nopStep.operands).Delivers
      ([.ofRegister .zero, .ofRegister .zero, .ofValue 0].map fun op => some (op, none)) :=
    ⟨[], rfl, rfl⟩
  have hstep := delivers_encodeStep hfields hword
  exact .bind (.pure _) (.bind (.pure _) (.bind (.ofExcept hexpand)
    (.bind hstep (.bind (.pure _) (.pure _)))))

namespace Environment

variable {env env' : Environment} {enc : Encoder}

theorem line_printed {name : String} (hname : Lexeme.isHead name) {operands : List String}
    {specs : List (List Spelling)}
    (h : List.Forall₂ Printable (operands.map String.toList) specs) (env : Environment)
    (enc : Encoder) (file : String) (number : Int) :
    ∃ b : StatementBody, b.head.kind = Lexeme.headKind name ∧ b.head.text = name ∧
      b.args.map (List.map Token.spelling) = specs ∧
      env.line enc file number (lineText name operands) = env.statement enc ⟨[], some b⟩ := by
  have hrest : Lexeme.Spells
      (if operands = [] then [] else ' ' :: [',', ' '].intercalate (operands.map String.toList))
      (if specs = [] then [] else (.whitespace, " ") :: listing specs) := by
    cases operands with
    | nil =>
      cases h
      exact .nil
    | cons o os =>
      obtain ⟨spec, specs, hp, hps, rfl⟩ := List.forall₂_cons_left_iff.mp h
      exact .space (hp.not_blank _) (spells_listing (.cons hp hps))
  have hblank : ∀ l : List Char, (if operands = [] then [] else ' ' :: l) = [] ∨
      (if operands = [] then [] else ' ' :: l).head? = some ' ' := by
    intro l
    split
    · exact .inl rfl
    · exact .inr rfl
  obtain ⟨line, hline, htokens⟩ := Lexeme.tokens_of_head hname (hblank _) hrest file number
    (toList_lineText name operands)
  obtain ⟨b, hparse, hkind, htext, hargs⟩ :=
    Statement.parse_spelled (isOperand_of_printable h) (Lexeme.headKind_eq name) htokens
  refine ⟨b, hkind, htext, hargs, ?_⟩
  rw [Environment.line, hline]
  refine (pure_bind line _).trans ?_
  rw [hparse]
  exact pure_bind _ _

theorem delivers_line {name : String} (hname : Lexeme.isHead name) {operands : List String}
    {specs : List (List Spelling)}
    (h : List.Forall₂ Printable (operands.map String.toList) specs)
    (hs : ∀ b : StatementBody, b.head.kind = Lexeme.headKind name → b.head.text = name →
      b.args.map (List.map Token.spelling) = specs →
      (env.statement enc ⟨[], some b⟩).Delivers env') (file : String) (number : Int) :
    (env.line enc file number (lineText name operands)).Delivers env' := by
  obtain ⟨b, hkind, htext, hargs, hline⟩ := line_printed hname h env enc file number
  rw [hline]
  exact hs b hkind htext hargs

variable (name : String) (order : ByteOrder)

def aligned : Environment := .initial (Module.ofText name order .empty)

def stored (w : UInt32) : Environment :=
  .initial (Module.ofText name order (order.wordBytes w).toByteArray)

theorem apply_align_initial :
    (Environment.initial { name, order }).apply (Module.align StandardSection.text.name 2) =
      .ok (aligned name order) := rfl

theorem apply_append_aligned (w : UInt32) :
    (aligned name order).apply
      (Module.append StandardSection.text.name (order.wordBytes w).toByteArray) =
      .ok (stored name order w) := by
  rw [stored, ← ByteArray.empty_append (b := (order.wordBytes w).toByteArray)]
  rfl

theorem delivers_statement {b : StatementBody} (hb : alignmentOf b = 2)
    (h : (if b.isDirective then (aligned name order).directive b
      else if b.isInstruction then (aligned name order).instruction enc b
      else pure (aligned name order) : Guarded Environment).Delivers env') :
    ((Environment.initial { name, order }).statement enc ⟨[], some b⟩).Delivers env' := by
  unfold statement
  dsimp only [Option.map_some, Option.getD_some]
  rw [hb, if_pos (by decide)]
  exact .bind (.ofExcept (apply_align_initial name order)) (.bind (.pure _) h)

theorem delivers_dataValue {b : StatementBody} {ts : List Token} {w : UInt32}
    (hts : Numeral ts (Int64.ofNat w.toNat)) :
    (env.dataValue b .word ts).Delivers (Int64.ofNat w.toNat, env) := by
  have hevaluate : (b.evaluate env ts).Delivers (some (.constant (Int64.ofNat w.toNat))) := by
    obtain ⟨e, he, hv⟩ := hts.value b.head.location env.context
    unfold StatementBody.evaluate
    rw [he]
    refine .bind (.pure _) ?_
    dsimp only
    rw [hv]
    exact .pure _
  have hw := w.toNat_lt
  have hfits : fitsUnsigned (Int64.ofNat w.toNat) (8 * DataSize.word.bytes) := by
    have hpow : Nat.pow 2 (8 * DataSize.word.bytes) = 0x100000000 := rfl
    rw [fitsUnsigned, Int64.toInt_ofNat_of_lt (by omega), hpow]
    simp only [decide_eq_true_eq]
    exact ⟨by decide, by omega, by omega⟩
  unfold dataValue
  refine .bind hevaluate ?_
  dsimp only
  rw [if_neg (by simp)]
  have hnumber : (ExprValue.constant (Int64.ofNat w.toNat)).number = Int64.ofNat w.toNat := rfl
  rw [hnumber, hfits, Bool.or_true, if_pos rfl]
  exact .pure _

theorem delivers_word {b : StatementBody} (hb : b.head.kind = .directive)
    (hname : b.head.text = ".word") {w : UInt32} {ts : List Token} (hargs : b.args = [ts])
    (hts : Numeral ts (Int64.ofNat w.toNat)) :
    ((Environment.initial { name, order }).statement enc ⟨[], some b⟩).Delivers
      (stored name order w) := by
  have hdirective : b.isDirective := by simp [StatementBody.isDirective, hb]
  have hinstruction : ¬b.isInstruction := by simp [StatementBody.isInstruction, hb]
  have hword : b.name = ".word" := by
    rw [StatementBody.name, hname]
    decide
  have halign : alignmentOf b = 2 := by
    rw [alignmentOf, if_neg hinstruction, hword]
    rfl
  have hdata : (aligned name order).directive b = (aligned name order).dataDirective b .word := by
    unfold directive
    rw [hword]
    rfl
  have hbytes : DataSize.word.encode order (Int64.ofNat w.toNat) = order.wordBytes w := by
    have hlow := toNat_lowWord (Int64.ofNat w.toNat)
    have hw := w.toNat_lt
    rw [Int64.toInt_ofNat_of_lt (by omega)] at hlow
    rw [DataSize.encode, (UInt32.toNat_inj.mp (by omega) : lowWord (Int64.ofNat w.toNat) = w)]
  have happend : (aligned name order).apply (Module.append (aligned name order).current
      (DataSize.word.encode (aligned name order).module.order
        (Int64.ofNat w.toNat)).toByteArray) = .ok (stored name order w) := by
    rw [← apply_append_aligned, ← hbytes]
    rfl
  -- The body is a directive with one argument, as the data directive stores it.
  refine delivers_statement name order halign ?_
  rw [if_pos hdirective, hdata]
  unfold dataDirective
  refine .bind (.ofReported (a := true) ?_) (.bind (.ofReported (a := true) (.pure true)) ?_)
  · unfold StatementBody.checkCount
    rw [if_pos (by simp [hargs])]
    exact .pure true
  · rw [hargs]
    exact .bind (delivers_dataValue hts) (.bind (.ofExcept happend) (.pure _))

theorem storeWords_aligned (w : UInt32) :
    storeWords true [⟨w, none⟩] (aligned name order) = .ok (stored name order w) := by
  have hperform : (aligned name order).module.perform
      (Module.appendWord (aligned name order).current w) = (aligned name order).module.perform
        (Module.append StandardSection.text.name (order.wordBytes w).toByteArray) := by
    rw [Module.appendWord, Module.perform_bind, Module.perform_get]
    rfl
  have happend : (aligned name order).apply (Module.appendWord (aligned name order).current w) =
      .ok (stored name order w) := by
    rw [← apply_append_aligned, apply, apply, edit, edit, hperform]
  change (aligned name order).apply (Module.appendWord (aligned name order).current w) >>= _ = _
  rw [happend]
  rfl

theorem delivers_checkTemporary (env : Environment) (os : List SourceOperand) :
    (env.checkTemporary os).Delivers () := by
  unfold checkTemporary
  split
  · induction os with
    | nil => exact .pure ()
    | cons o os ih =>
      change (_ >>= fun _ => os.forM _ : Reported Unit).Delivers ()
      refine .bind (a := ()) ?_ ih
      dsimp only
      split
      · exact .warning (by decide) _ _ _
      · exact .pure ()
  · exact .pure ()

theorem delivers_instruction {b : StatementBody} (hb : b.head.kind = .instruction) {m : Mnemonic}
    (hm : enc.recognise b.head = pure (some m)) {p : ParsedInstruction} {w : UInt32}
    (hp : Encoder.parse m b.head b.args = pure (some p))
    (hw : (enc.encode (aligned name order).context p).Delivers ([⟨w, none⟩], true)) :
    ((Environment.initial { name, order }).statement enc ⟨[], some b⟩).Delivers
      (stored name order w) := by
  have hdirective : ¬b.isDirective := by simp [StatementBody.isDirective, hb]
  have hinstruction : b.isInstruction := by simp [StatementBody.isInstruction, hb]
  have halign : alignmentOf b = 2 := if_pos hinstruction
  refine delivers_statement name order halign ?_
  rw [if_neg hdirective, if_pos hinstruction]
  have hexec : (aligned name order).flags.exec = true := rfl
  unfold Environment.instruction
  rw [if_pos hexec, hm]
  refine .bind (.pure _) ?_
  dsimp only
  rw [hp]
  refine .bind (.pure _) (.bind (.ofReported (delivers_checkTemporary _ _)) (.bind hw ?_))
  exact .ofExcept (storeWords_aligned name order w)

section Lines

variable (file : String) (number : Int) (pc : UInt32)

theorem delivers_decoded {w w' : UInt32} (hw : w ≠ 0) {d : Decoded}
    (hd : enc.table.decode w = some d) (hb : .branch ∉ d.instruction.args)
    (hw' : d.encode = .ok w') :
    ((Environment.initial { name, order }).line enc file number
      (enc.table.disassemble w pc)).Delivers (stored name order w') := by
  obtain ⟨hi, hoperands⟩ := Table.decode_eq_some hd
  obtain ⟨hhead, hkind, -, -⟩ := Instruction.name_pattern _ (List.mem_filter.mp hi).1
  rw [Decoded.encode, hoperands] at hw'
  obtain ⟨specs, hprint, hread⟩ := Encoder.instruction_restored pc w hb hw'
  rw [Table.disassemble_of_decode hw hd]
  refine delivers_line hhead (by rwa [List.map_map]) (fun b hk ht hargs => ?_) file number
  obtain ⟨p, hp, hencode⟩ := hread b.args hargs enc b.head (aligned name order).context
  exact delivers_instruction name order (hk.trans hkind) (Encoder.recognise_machine hi ht) hp hencode

theorem delivers_undecoded {w : UInt32} (hw : enc.table.decode w = none) :
    ((Environment.initial { name, order }).line enc file number
      (enc.table.disassemble w pc)).Delivers (stored name order w) := by
  rw [Table.disassemble_of_none hw, mark_hexWord]
  generalize 8 - (Text.hex w.toNat).length = k
  have hprint : List.Forall₂ Printable ([markedDigits k w.toNat].map String.toList)
      [[(.immediate, markedDigits k w.toNat)]] := .cons (printable_markedDigits k w.toNat) .nil
  refine delivers_line (by decide +kernel) hprint (fun b hk ht hargs => ?_) file number
  obtain ⟨ts, args, hb, hts, hargs⟩ := List.map_eq_cons_iff.mp hargs
  rw [List.map_eq_nil_iff.mp hargs] at hb
  have hw := w.toNat_lt
  exact delivers_word name order hk ht hb (numeral_markedDigits (by omega) hts)

theorem delivers_nop (hp : enc.pseudo) :
    ((Environment.initial { name, order }).line enc file number "nop").Delivers
      (stored name order 0) := by
  change (line _ enc file number (lineText "nop" [])).Delivers _
  refine delivers_line (by decide +kernel) .nil (fun b hk ht hargs => ?_) file number
  have hrecognise : enc.recognise b.head = pure (some (.pseudo Pseudo.nop)) := by
    have hlower : Text.lower "nop" = "nop" := by decide
    have hmachine : Instruction.ofName? "nop" = none := by decide
    have hpseudo : Pseudo.ofName? "nop" = some Pseudo.nop := by decide
    rw [Encoder.recognise, ht, hlower, Table.lookup, hmachine, hpseudo]
    exact if_pos hp
  have hparse : Encoder.parse (.pseudo Pseudo.nop) b.head b.args =
      pure (some ⟨.pseudo Pseudo.nop, []⟩) := by
    rw [List.map_eq_nil_iff.mp hargs]
    rfl
  exact delivers_instruction name order hk hrecognise hparse (Encoder.delivers_nop _ _)

end Lines

end Environment

theorem assembleLines_of_line {s : Settings} (hs : s.strict = false) {name text : String}
    {w : UInt32} (h : ((Environment.initial { name, order := s.order }).line s.encoder name 1
      text).Delivers (.stored name s.order w)) :
    ∃ ds, assembleLines s name [text] =
        .ok ⟨(Module.ofText name s.order (s.order.wordBytes w).toByteArray).finalize, ds⟩ ∧
      errorCount ds = 0 := by
  have hlines : (Environment.lines s.encoder name 1 [text]
      (.initial { name, order := s.order })).Delivers (.stored name s.order w) :=
    .bind h (.pure _)
  obtain ⟨ds, hds, hcount⟩ := hlines
  refine ⟨ds, ?_, hcount⟩
  rw [assembleLines, hds]
  dsimp only
  rw [hs, promoteIf_false, hcount]
  rfl

/-- Every instruction without a branch target is assembled again from its printed form, to the word
that encoding what was decoded gives. A word that is no instruction comes back as it was, and so
does the word of no operation. At most warnings are reported, such as for the temporary register. -/
theorem assembleLines_disassemble (s : Settings) (hp : s.pseudo) (hs : s.strict = false)
    (name : String) (w pc : UInt32)
    (h : ∀ d, (⟨s.version⟩ : Table).decode w = some d → .branch ∉ d.instruction.args) :
    ∃ w' ds, assembleLines s name [(⟨s.version⟩ : Table).disassemble w pc] =
        .ok ⟨(Module.ofText name s.order (s.order.wordBytes w').toByteArray).finalize, ds⟩ ∧
      errorCount ds = 0 ∧ ((⟨s.version⟩ : Table).decode w = none → w' = w) ∧
      (∀ d, (⟨s.version⟩ : Table).decode w = some d → d.encode = .ok w') ∧ (w = 0 → w' = 0) := by
  rcases eq_or_ne w 0 with rfl | hw
  · obtain ⟨d, hd, hencode⟩ := (⟨s.version⟩ : Table).decode_zero
    obtain ⟨ds, hds, hcount⟩ :=
      assembleLines_of_line hs (Environment.delivers_nop name s.order name 1 hp)
    refine ⟨0, ds, hds, hcount, fun _ => rfl, fun d' hd' => ?_, fun _ => rfl⟩
    cases hd.symm.trans hd'
    exact hencode
  · cases hd : (⟨s.version⟩ : Table).decode w with
    | none =>
      obtain ⟨ds, hds, hcount⟩ :=
        assembleLines_of_line hs (Environment.delivers_undecoded name s.order name 1 pc hd)
      exact ⟨w, ds, hds, hcount, fun _ => rfl, nofun, fun h => h⟩
    | some d =>
      obtain ⟨w', hw'⟩ : ∃ w', d.encode = .ok w' := by
        rw [Decoded.encode, (Table.decode_eq_some hd).2]
        exact ⟨_, if_neg (not_not.mpr (d.instruction.length_decode w))⟩
      obtain ⟨ds, hds, hcount⟩ := assembleLines_of_line hs
        (Environment.delivers_decoded name s.order name 1 pc hw hd (h d hd) hw')
      refine ⟨w', ds, hds, hcount, nofun, fun d' hd' => ?_, fun h => absurd h hw⟩
      cases hd'
      exact hw'

/-- A load with a negative offset comes back. -/
theorem assembleLines_disassemble_load :
    (∀ d, (⟨.mips1⟩ : Table).decode 0x8fbffffc = some d → .branch ∉ d.instruction.args) ∧
      (⟨.mips1⟩ : Table).disassemble 0x8fbffffc 0x400000 = "lw $ra, -4($sp)" ∧
      ∃ ds, assembleLines { version := .mips1 } "a.s" ["lw $ra, -4($sp)"] =
          .ok ⟨(Module.ofText "a.s" .big [0x8f, 0xbf, 0xff, 0xfc].toByteArray).finalize, ds⟩ ∧
        errorCount ds = 0 := by
  have hargs : ((⟨.mips1⟩ : Table).decode 0x8fbffffc).all fun d =>
      .branch ∉ d.instruction.args := by decide
  have hbranch : ∀ d, (⟨.mips1⟩ : Table).decode 0x8fbffffc = some d →
      .branch ∉ d.instruction.args := fun d hd => by simpa [hd] using hargs
  have htext : (⟨.mips1⟩ : Table).disassemble 0x8fbffffc 0x400000 = "lw $ra, -4($sp)" := by
    decide
  have hencode : ((⟨.mips1⟩ : Table).decode 0x8fbffffc).map Decoded.encode =
      some (.ok 0x8fbffffc) := by decide
  obtain ⟨w', ds, hds, hcount, -, hw', -⟩ := assembleLines_disassemble { version := .mips1 } rfl rfl
    "a.s" 0x8fbffffc 0x400000 hbranch
  obtain ⟨d, hd, hd'⟩ := Option.map_eq_some_iff.mp hencode
  cases hd'.symm.trans (hw' d hd)
  rw [htext] at hds
  exact ⟨hbranch, htext, ds, hds, hcount⟩

end MipsToolchain
