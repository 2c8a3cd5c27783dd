import MipsToolchain.Proofs.Completion
import MipsToolchain.Proofs.Encoding.Printed
import MipsToolchain.Proofs.Isa.Decoding

namespace MipsToolchain

namespace OperandValue

variable (r : Isa.Register) (v : Int64) (o : SourceOperand)

theorem delivers_report {p : Problem} (hp : p.severity ≠ .error) (args : List MessageArg) :
    ((known r v o).report p args).Delivers () :=
  .warning hp _ _ _

theorem delivers_shift : (known r v o).encodeShift.Delivers (settled v) := by
  unfold encodeShift
  rw [if_neg (by simp [known])]
  dsimp only
  split
  · exact .pure _
  · exact .bind (delivers_report r v o (by decide) _) (.pure _)

theorem delivers_immediate (unsigned : Bool) (loc : Address) :
    ((known r v o).encodeImmediate unsigned loc).Delivers (settled v) := by
  have hcheck : ((known r v o).checkImmediate unsigned).Delivers () := by
    unfold checkImmediate
    dsimp only
    split
    all_goals
      split
      · exact .pure _
      · exact delivers_report r v o (by decide) _
  unfold encodeImmediate
  dsimp only
  rw [if_neg (by simp [known])]
  exact .bind hcheck (.pure _)

theorem delivers_target (hv : v % 4 = 0) (loc : Address) :
    ((known r v o).encodeTarget loc).Delivers (settled (v >>> 2)) := by
  have haligned : ¬(known r v o).value.number % 4 ≠ 0 := not_not.mpr hv
  unfold encodeTarget
  dsimp only
  rw [if_neg haligned, if_neg (by simp [known])]
  split
  · exact .pure _
  · exact .bind (delivers_report r v o (by decide) _) (.pure _)

end OperandValue

namespace Isa

theorem toNat_registerField (w : UInt32) : (w &&& registerMask).toNat < 32 := by
  rw [registerMask, toNat_low5]
  omega

theorem Register.name_pattern : ∀ n < 32,
    (Register.name ⟨n.toUInt8⟩).toList.head? = some '$' ∧
    (Register.name ⟨n.toUInt8⟩).toList.tail.all Lexeme.isWordChar ∧
    Register.parse? (Register.name ⟨n.toUInt8⟩) = some ⟨n.toUInt8⟩ ∧
    (Int64.ofNat n).toUInt64.toUInt8 = n.toUInt8 ∧
    Operand.ofRegister ⟨n.toUInt8⟩ = .ofValue (Int64.ofNat n) := by
  decide

namespace Argument

/-- Whether an operand that is printed for a word is read again, without an error, as one that
contributes the same bits. -/
def Restored (a : Argument) (pc w : UInt32) : Prop :=
  ∃ spec, Printable (a.renderAt pc (a.decode w)).toList spec ∧
    ∀ ts : List Token, ts.map Token.spelling = spec → ∃ r v, Reads ts a r v ∧
      ∀ o loc, ∃ op, ((OperandValue.known r v o).encode a loc).Delivers (some (op, none)) ∧
        a.encode op = a.encode (a.decode w)

variable {a : Argument} (pc w : UInt32)

theorem printable_name {n : Nat} (hn : n < 32) :
    Printable (Register.name ⟨n.toUInt8⟩).toList [(.register, Register.name ⟨n.toUInt8⟩)] := by
  obtain ⟨hhead, hword, -⟩ := Register.name_pattern n hn
  have htext : (Register.name ⟨n.toUInt8⟩).toList =
      '$' :: (Register.name ⟨n.toUInt8⟩).toList.tail := List.eq_cons_of_mem_head? hhead
  have hprintable := Printable.register (List.all_eq_true.mp hword)
  rwa [← htext, String.ofList_toList] at hprintable

theorem restored_register (ha : a.isRegister) : a.Restored pc w := by
  have hfield : ∃ n < 32, a.decode w = .ofValue (Int64.ofNat n) := by
    cases a with
    | rs | rt | rd => exact ⟨_, toNat_registerField _, rfl⟩
    | shamt | immediate | unsigned | memory | branch | target => cases ha
  obtain ⟨n, hn, hdecode⟩ := hfield
  obtain ⟨-, -, hparse, hindex, hop⟩ := Register.name_pattern n hn
  have htext : a.renderAt pc (a.decode w) = Register.name ⟨n.toUInt8⟩ := by
    rw [hdecode, ← hindex]
    cases a with
    | rs | rt | rd => rfl
    | shamt | immediate | unsigned | memory | branch | target => cases ha
  refine ⟨_, htext ▸ printable_name hn, fun ts hts => ?_⟩
  obtain ⟨t, ts, rfl, ht, hts⟩ := List.map_eq_cons_iff.mp hts
  rw [List.map_eq_nil_iff.mp hts]
  have hname : t.text = Register.name ⟨n.toUInt8⟩ := (congrArg Prod.snd ht).trans htext
  refine ⟨⟨n.toUInt8⟩, 0, reads_register (congrArg Prod.fst ht) (hname ▸ hparse) ha, ?_⟩
  intro o loc
  refine ⟨.ofRegister ⟨n.toUInt8⟩, ?_, by rw [hop, hdecode]⟩
  cases a with
  | rs | rt | rd => exact .pure _
  | shamt | immediate | unsigned | memory | branch | target => cases ha

theorem restored_shamt : shamt.Restored pc w := by
  refine ⟨_, printable_decimal _, fun ts hts => ?_⟩
  refine ⟨_, _, (numeral_decimal hts).reads rfl, fun o loc => ?_⟩
  exact ⟨_, OperandValue.delivers_shift _ _ o, rfl⟩

theorem restored_immediate : immediate.Restored pc w := by
  refine ⟨_, printable_decimal _, fun ts hts => ?_⟩
  refine ⟨_, _, (numeral_decimal hts).reads rfl, fun o loc => ?_⟩
  exact ⟨_, OperandValue.delivers_immediate _ _ o false loc, rfl⟩

theorem restored_memory : memory.Restored pc w := by
  have hn := toNat_registerField (w >>> 21)
  obtain ⟨-, -, hparse, -⟩ := Register.name_pattern _ hn
  have hrender : memory.renderAt pc (memory.decode w) =
      toString (signExtend (w &&& immediateMask) 16).toInt ++ "(" ++
        Register.name ⟨(w >>> 21 &&& registerMask).toNat.toUInt8⟩ ++ ")" := rfl
  have htext : (memory.renderAt pc (memory.decode w)).toList =
      (toString (signExtend (w &&& immediateMask) 16).toInt).toList ++
        '(' :: ((Register.name ⟨(w >>> 21 &&& registerMask).toNat.toUInt8⟩).toList ++ [')']) := by
    have hopen : "(".toList = ['('] := rfl
    have hclose : ")".toList = [')'] := rfl
    rw [hrender, String.toList_append, String.toList_append, String.toList_append,
      List.append_assoc, List.append_assoc, hopen, hclose, List.singleton_append]
  have hprintable := (printable_decimal (signExtend (w &&& immediateMask) 16).toInt).based
    (printable_name hn)
  rw [← htext] at hprintable
  refine ⟨_, hprintable, fun ts hts => ?_⟩
  obtain ⟨ns, ts, rfl, hns, hts⟩ := List.map_eq_append_iff.mp hts
  obtain ⟨opening, ts, rfl, ho, hts⟩ := List.map_eq_cons_iff.mp hts
  obtain ⟨t, ts, rfl, ht, hts⟩ := List.map_eq_cons_iff.mp hts
  obtain ⟨close, ts, rfl, hc, hts⟩ := List.map_eq_cons_iff.mp hts
  rw [List.map_eq_nil_iff.mp hts]
  have hname : t.text = Register.name ⟨(w >>> 21 &&& registerMask).toNat.toUInt8⟩ :=
    congrArg Prod.snd ht
  refine ⟨_, _, (numeral_decimal hns).reads_memory (congrArg Prod.fst ho) (congrArg Prod.fst ht)
    (congrArg Prod.fst hc) (hname ▸ hparse), fun o loc => ?_⟩
  refine ⟨memory.decode w, ?_, rfl⟩
  exact .bind (OperandValue.delivers_immediate _ _ o false loc) (.pure _)

theorem restored_unsigned : unsigned.Restored pc w := by
  have hlt : (w >>> 0 &&& immediateMask).toNat < 0x10000 := by
    rw [immediateMask, toNat_low16]
    omega
  have htext : unsigned.renderAt pc (unsigned.decode w) =
      markedDigits 0 (w >>> 0 &&& immediateMask).toNat := by
    rw [← markedHex_natCast, ← Int64.toInt_ofNat_of_lt (by omega)]
    rfl
  unfold Restored
  rw [htext]
  refine ⟨_, printable_markedDigits 0 _, fun ts hts => ?_⟩
  have hnumeral := numeral_markedDigits (Nat.lt_trans hlt (by decide)) hts
  refine ⟨_, _, hnumeral.reads rfl, fun o loc => ?_⟩
  exact ⟨_, OperandValue.delivers_immediate _ _ o true loc, rfl⟩

/-- The region that an absolute address carries in front of the field is dropped again. -/
theorem restored_target : target.Restored pc w := by
  have hlt := (jumpTarget pc (target.decode w).value).toNat_lt
  have haddress : (jumpTarget pc (target.decode w).value).toNat =
      (pc.toNat + 4) % 0x100000000 / 0x10000000 * 0x10000000 + 4 * (w.toNat % 0x4000000) :=
    toNat_jumpTarget pc w
  have htext : target.renderAt pc (target.decode w) = markedDigits _ _ := mark_hexWord _
  unfold Restored
  rw [htext]
  refine ⟨_, printable_markedDigits _ _, fun ts hts => ?_⟩
  have hnumeral := numeral_markedDigits (Nat.lt_trans hlt (by decide)) hts
  refine ⟨_, _, hnumeral.reads rfl, fun o loc => ?_⟩
  have hvalue := Int64.toInt_ofNat_of_lt (Nat.lt_trans hlt (by decide))
  refine ⟨_, OperandValue.delivers_target _ _ o ?_ loc, ?_⟩
  -- The low two bits of the address are clear, and those above the field are dropped.
  · rw [← Int64.toInt_inj, Int64.toInt_mod, hvalue]
    have hfour : Int64.toInt 4 = 4 := rfl
    have hdvd : (4 : Int) ∣ (jumpTarget pc (target.decode w).value).toNat := by omega
    rw [hfour, Int.tmod_eq_zero_of_dvd hdvd]
    rfl
  · have hfield : (target.decode w).value.toInt = (w.toNat % 0x4000000 : Nat) := by
      have hnat : (w >>> 0 &&& targetMask).toNat = w.toNat % 0x4000000 := by
        rw [targetMask, toNat_low26, UInt32.toNat_shiftRight]
        rfl
      rw [← hnat]
      exact Int64.toInt_ofNat_of_lt (by omega)
    have hleft := toNat_lowWord (Int64.ofNat (jumpTarget pc (target.decode w).value).toNat >>> 2)
    have hright := toNat_lowWord (target.decode w).value
    rw [toInt_shiftRight_two, hvalue] at hleft
    rw [hfield] at hright
    rw [← UInt32.toNat_inj, toNat_encode_target, toNat_encode_target]
    change (lowWord (Int64.ofNat (jumpTarget pc (target.decode w).value).toNat >>> 2)).toNat % _ = _
    omega

/-- All operands but branch targets survive being printed. -/
theorem restored {a : Argument} (ha : a ≠ branch) : a.Restored pc w := by
  cases a with
  | rs | rt | rd => exact restored_register pc w rfl
  | shamt => exact restored_shamt pc w
  | immediate => exact restored_immediate pc w
  | unsigned => exact restored_unsigned pc w
  | memory => exact restored_memory pc w
  | branch => exact absurd rfl ha
  | target => exact restored_target pc w

end Argument

end Isa

namespace Encoder

open Isa

variable (pc w : UInt32)

theorem parseOperand_eq {t : Token} {number : Nat} {a : Argument} {ts : List Token}
    {o : SourceOperand} (h : SourceOperand.parse ts t.location = pure (some o))
    (hs : o.form.suits a) : parseOperand t number a ts = pure (some o) := by
  rw [parseOperand, h]
  exact if_pos hs

theorem operands_restored {as : List Argument} (has : ∀ a ∈ as, a ≠ .branch) :
    ∃ specs, List.Forall₂ Printable
        (as.map fun a => (a.renderAt pc (a.decode w)).toList) specs ∧
      ∀ args : List (List Token), args.map (List.map Token.spelling) = specs →
      ∀ t number ctx loc hl, ∃ os vs ops, parseOperands t number as args hl = pure (some os) ∧
        evaluateAll ctx os = pure (some vs) ∧
        (encodeFields loc as vs).Delivers (ops.map fun op => some (op, none)) ∧
        ops.length = as.length ∧
        List.zipWith Argument.encode as ops = as.map fun a => a.encode (a.decode w) := by
  induction as with
  | nil =>
    refine ⟨[], .nil, fun args hargs t number ctx loc hl => ?_⟩
    obtain rfl := List.map_eq_nil_iff.mp hargs
    exact ⟨[], [], [], rfl, rfl, .pure _, rfl, rfl⟩
  | cons a as ih =>
    obtain ⟨ha, has⟩ := List.forall_mem_cons.mp has
    obtain ⟨spec, hprint, hread⟩ := Argument.restored pc w ha
    obtain ⟨specs, hprints, hreads⟩ := ih has
    refine ⟨spec :: specs, .cons hprint hprints, fun args hargs t number ctx loc hl => ?_⟩
    obtain ⟨ts, args, rfl, hts, hargs⟩ := List.map_eq_cons_iff.mp hargs
    obtain ⟨r, v, hoperand, hencode⟩ := hread ts hts
    obtain ⟨o, hparse, hsuits, hvalue⟩ := hoperand t.location ctx
    obtain ⟨op, hfield, hop⟩ := hencode o loc
    obtain ⟨os, vs, ops, hos, hvs, hfields, hlen, hops⟩ :=
      hreads args hargs t (number + 1) ctx loc (Nat.succ.inj hl)
    refine ⟨o :: os, .known r v o :: vs, op :: ops, ?_, ?_, ?_, congrArg (· + 1) hlen, ?_⟩
    · rw [parseOperands, parseOperand_eq hparse hsuits, hos]
      rfl
    · rw [evaluateAll, hvalue, hvs]
      rfl
    · exact .bind (.ofReported hfield) (.bind hfields (.pure _))
    · rw [List.zipWith_cons_cons, List.map_cons, hop, hops]

theorem delivers_encodeStep {loc : Address} {s : MachineStep} {ops : List Operand} {w : UInt32}
    (hf : (encodeFields loc s.instruction.args s.operands).Delivers
      (ops.map fun op => some (op, none)))
    (hw : s.instruction.encode ops = .ok w) : (encodeStep loc s).Delivers (⟨w, none⟩, true) := by
  have hvalues : (ops.map fun op => (some (op, none) : FieldValue)).map
      (fun f => (f.map (·.1)).getD (.ofValue 0)) = ops := by
    rw [List.map_map]
    exact List.map_id ops
  have hnone : lastReference (ops.map fun op => some (op, none)) = none := by
    simp [lastReference, List.filterMap_map]
  have hall : (ops.map fun op => (some (op, none) : FieldValue)).all Option.isSome = true := by
    simp
  refine .bind hf (.bind (.ofExcept (hvalues.symm ▸ hw)) ?_)
  rw [hnone, hall]
  exact .pure _

theorem instruction_restored {i : Instruction} (hi : .branch ∉ i.args) {w' : UInt32}
    (hw : i.encode (i.decode w) = .ok w') :
    ∃ specs, List.Forall₂ Printable
        (i.args.map fun a => (a.renderAt pc (a.decode w)).toList) specs ∧
      ∀ args : List (List Token), args.map (List.map Token.spelling) = specs →
      ∀ enc t ctx, ∃ p, parse (.machine i) t args = pure (some p) ∧
        (encode enc ctx p).Delivers ([⟨w', none⟩], true) := by
  obtain ⟨specs, hprint, hreads⟩ := operands_restored pc w fun a ha hb => hi (hb ▸ ha)
  refine ⟨specs, hprint, fun args hargs enc t ctx => ?_⟩
  have hcount : args.length = (Mnemonic.machine i).args.length := by
    have hspecs := hprint.length_eq
    rw [List.length_map, ← hargs, List.length_map] at hspecs
    exact hspecs.symm
  obtain ⟨os, vs, ops, hos, hvs, hfields, hlen, hops⟩ :=
    hreads args hargs t 1 ctx ctx.location hcount
  have hword : i.encode ops = .ok w' := by
    rw [Instruction.encode, if_neg (not_not.mpr (i.length_decode w)), Instruction.decode,
      List.zipWith_map_right, List.zipWith_self, ← hops] at hw
    rwa [Instruction.encode, if_neg (not_not.mpr hlen)]
  refine ⟨⟨.machine i, os⟩, ?_, ?_⟩
  · rw [parse, dif_pos hcount]
    change (do return (← parseOperands t 1 i.args args hcount).map _) = _
    rw [hos]
    rfl
  · unfold encode
    rw [hvs]
    exact .bind (.pure _) (.bind (.ofExcept rfl)
      (.bind (delivers_encodeStep hfields hword) (.bind (.pure _) (.pure _))))

end Encoder

end MipsToolchain
