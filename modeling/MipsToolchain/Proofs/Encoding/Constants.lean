import MipsToolchain.Proofs.Assembly.Accounting
import MipsToolchain.Proofs.Encoding.Reassembly
import MipsToolchain.Proofs.Isa.RoundTrip

namespace MipsToolchain

open Diagnostic Guarded

namespace Isa

theorem toInt_and_mask {n mask : Int64} {k : Nat} (hm : mask.toBitVec.toNat = 2 ^ k - 1)
    (hk : k = 5 ∨ k = 16) : (n &&& mask).toInt = n.toInt % 2 ^ k := by
  have hlow : (n &&& mask).toBitVec.toNat = n.toBitVec.toNat % 2 ^ k := by
    rw [Int64.toBitVec_and, BitVec.toNat_and, hm, Nat.and_two_pow_sub_one_eq_mod]
  have hn := Int64.toInt_toBitVec n
  have hmasked := Int64.toInt_toBitVec (n &&& mask)
  rw [BitVec.toInt_eq_toNat_bmod] at hn hmasked
  rw [← hn, ← hmasked, hlow, Int.bmod_def, Int.bmod_def]
  rcases hk with rfl | rfl
  · split <;> split <;> omega
  · split <;> split <;> omega

theorem toInt_signExtend_lowWord (n : Int64) :
    (signExtend (lowWord n) 16).toInt = n.toInt.bmod 0x10000 := by
  have hlow := toNat_lowWord n
  have hmod : ((lowWord n).toNat : Int).bmod 0x10000 = n.toInt.bmod 0x10000 := by
    rw [hlow, ← Int.emod_bmod, Int.emod_emod_of_dvd _ (by decide), Int.emod_bmod]
  have hrange : -0x8000 ≤ n.toInt.bmod 0x10000 ∧ n.toInt.bmod 0x10000 < 0x8000 := by
    rw [Int.bmod_def]
    split <;> omega
  rw [signExtend, if_pos (by decide)]
  change (Int64.ofInt (((lowWord n).toNat : Int).bmod 0x10000)).toInt = _
  rw [hmod]
  exact Int64.toInt_ofInt_of_le (by omega) (by omega)

/-- Whether a number is one that the field of an argument can hold. -/
def Argument.Fits (a : Argument) (n : Int64) : Prop :=
  a.bounds.1 ≤ n.toInt ∧ n.toInt < a.bounds.2

instance (a : Argument) (n : Int64) : Decidable (a.Fits n) := inferInstanceAs (Decidable (_ ∧ _))

theorem fits_shamt {n : Int64} : fitsUnsigned n 5 ↔ Argument.shamt.Fits n := by
  simp only [fitsUnsigned, decide_eq_true_eq]
  exact ⟨fun h => h.2, fun h => ⟨by decide, h⟩⟩

theorem fits_unsigned {n : Int64} : fitsUnsigned n 16 ↔ Argument.unsigned.Fits n := by
  simp only [fitsUnsigned, decide_eq_true_eq]
  exact ⟨fun h => h.2, fun h => ⟨by decide, h⟩⟩

theorem fits_signed {n : Int64} {a : Argument} (ha : a.bounds = (-0x8000, 0x8000)) :
    fitsSigned n 16 ↔ a.Fits n := by
  simp only [fitsSigned, decide_eq_true_eq, Argument.Fits, ha]
  exact ⟨fun h => h.2.2, fun h => ⟨by decide, by decide, h⟩⟩

theorem inRange_register {a : Argument} (ha : a.isRegister) {r : Register} (hr : r.index < 32) :
    a.InRange (.ofRegister r) := by
  have hlt : r.index.toNat < 32 := UInt8.lt_iff_toNat_lt.mp hr
  have hvalue : (Int64.ofNat r.index.toNat).toInt = r.index.toNat :=
    Int64.toInt_ofNat_of_lt (by omega)
  have hbounds : a.bounds = (0, 32) := by cases a <;> first | rfl | cases ha
  have hbase : a ≠ .memory := by rintro rfl; cases ha
  refine ⟨?_, ?_, ?_⟩
  · rw [hbounds, Operand.ofRegister, hvalue]
    exact Int.natCast_nonneg _
  · rw [hbounds, Operand.ofRegister, hvalue]
    exact Int.ofNat_lt.mpr hlt
  · rw [if_neg hbase]
    rfl

theorem inRange_unsigned {n : Int64} {m : Int} (h : n.toInt = m) (hl : 0 ≤ m) (hb : m < 0x10000) :
    Argument.unsigned.InRange (.ofValue n) :=
  ⟨hl.trans_eq h.symm, h.trans_lt hb, rfl⟩

end Isa

namespace SourceOperand

/-- The number that an operand stands for, if that depends on no address. An operand without an
expression stands for zero. -/
def constant? (ctx : EvalContext) (o : SourceOperand) : Option Int64 :=
  match o.form.expr? with
  | none => some 0
  | some e => match e.eval ctx with
    | .ok r => r.value.bind fun v => if v.isRelocatable then none else some v.number
    | .error _ => none

def truncation (o : SourceOperand) (n : Int64) (width : Nat) (rest : Int) : Diagnostic :=
  .of .immediateTruncated o.location [o.text] [.int n.toInt, .int width, .int rest]

/-- Whether a field shows the number of an operand, or what is left of it with a warning. -/
def HeldIn (o : SourceOperand) (a : Isa.Argument) (n v : Int64) (ds : List Diagnostic) : Prop :=
  if a.Fits n then v = n ∧ ds = []
  else v.toInt % 2 ^ a.width = n.toInt % 2 ^ a.width ∧ ds = [o.truncation n a.width v.toInt]

/-- What an operand with a given number is read back as, and what is reported for it. -/
def ShownAs (o : SourceOperand) (a : Isa.Argument) (n : Int64) (x : Isa.Operand)
    (ds : List Diagnostic) : Prop :=
  match a with
  | .rs | .rt | .rd => ∃ r, o.form = .register r ∧ x = .ofRegister r ∧ ds = []
  | .shamt | .immediate | .unsigned => x.base = .zero ∧ o.HeldIn a n x.value ds
  | .memory => (∃ offset, o.form = .memory x.base offset) ∧ o.HeldIn a n x.value ds
  | .branch => x = .ofValue n ∧ ds = []
  | .target => x.base = .zero ∧ x.value.toInt = n.toInt % 0x10000000 / 4 ∧
      ds = if 0 ≤ n.toInt ∧ n.toInt < 0x10000000 then []
        else [.of .jumpRegion o.location [o.text] [.int n.toInt]]

end SourceOperand

/-- The operands of an instruction, each as it is read back, with all reports in order. -/
inductive OperandsShown : List Isa.Argument → List SourceOperand → List Int64 →
    List Isa.Operand → List Diagnostic → Prop
  | nil : OperandsShown [] [] [] [] []
  | cons {a as o os n ns x xs ds es} : o.ShownAs a n x ds → OperandsShown as os ns xs es →
      OperandsShown (a :: as) (o :: os) (n :: ns) (x :: xs) (ds ++ es)

theorem SourceOperand.HeldIn.severity {o : SourceOperand} {a : Isa.Argument} {n v : Int64}
    {ds : List Diagnostic} (h : o.HeldIn a n v ds) : ∀ d ∈ ds, d.severity = .warning := by
  unfold HeldIn at h
  split at h
  all_goals
    rw [h.2]
    simp [truncation, Problem.severity, Problem.entry]

theorem SourceOperand.ShownAs.severity {o : SourceOperand} {a : Isa.Argument} {n : Int64}
    {x : Isa.Operand} {ds : List Diagnostic} (h : o.ShownAs a n x ds) :
    ∀ d ∈ ds, d.severity = .warning := by
  cases a with
  | rs | rt | rd =>
    obtain ⟨-, -, -, rfl⟩ := h
    simp
  | shamt | immediate | unsigned | memory => exact h.2.severity
  | branch => simp [h.2]
  | target =>
    rw [h.2.2]
    split <;> simp [Problem.severity, Problem.entry]

theorem OperandsShown.severity {as : List Isa.Argument} {os : List SourceOperand}
    {ns : List Int64} {xs : List Isa.Operand} {ds : List Diagnostic}
    (h : OperandsShown as os ns xs ds) : ∀ d ∈ ds, d.severity = .warning := by
  induction h with
  | nil => simp
  | cons h _ ih => exact List.forall_mem_append.mpr ⟨h.severity, ih⟩

theorem SourceOperand.heldIn_decode_encode (o : SourceOperand) (a : Isa.Argument) (n : Int64)
    (b : Isa.Register) : o.HeldIn a n (a.decode (a.encode ⟨n, b⟩)).value
      (if a.Fits n then [] else [o.truncation n a.width (a.cut n.toInt)]) := by
  have hvalue := a.value_decode_encode ⟨n, b⟩
  unfold HeldIn
  split
  · next hf =>
    rw [Isa.Argument.cut_of_bounds hf.1 hf.2] at hvalue
    exact ⟨Int64.toInt_inj.mp hvalue, rfl⟩
  · rw [hvalue]
    exact ⟨a.cut_mod n.toInt, rfl⟩

namespace OperandValue

variable {n : Int64} {o : SourceOperand} {loc : Address}

section Known

variable (r : Isa.Register) (n : Int64) (o : SourceOperand) (loc : Address)

theorem report_unless {b : Bool} {P : Prop} [Decidable P] (hb : b ↔ P) (p : Problem)
    (args : List MessageArg) :
    (if b then pure () else (known r n o).report p args : Reported Unit) =
      ⟨(), if P then [] else [.of p o.location [o.text] args]⟩ := by
  by_cases hP : P
  · rw [if_pos (hb.mpr hP), if_pos hP]
    rfl
  · rw [if_neg fun h => hP (hb.mp h), if_neg hP]
    rfl

theorem settled_unless {b : Bool} {P : Prop} [Decidable P] (hb : b ↔ P) (p : Problem)
    (args : List MessageArg) (f : FieldValue) :
    (do unless b do (known r n o).report p args
        pure f : Reported FieldValue) =
      ⟨f, if P then [] else [.of p o.location [o.text] args]⟩ := by
  by_cases hP : P
  · rw [if_pos (hb.mpr hP), if_pos hP]
    rfl
  · rw [if_neg fun h => hP (hb.mp h), if_neg hP]
    rfl

theorem encodeShift_known :
    (known r n o).encodeShift = ⟨settled n, if Isa.Argument.shamt.Fits n then []
      else [o.truncation n 5 (Isa.Argument.shamt.cut n.toInt)]⟩ := by
  have hcut : (n &&& 31).toInt = Isa.Argument.shamt.cut n.toInt :=
    Isa.toInt_and_mask (k := 5) (by decide) (.inl rfl)
  rw [← hcut]
  exact settled_unless r n o Isa.fits_shamt _ _ _

theorem encodeImmediate_known (unsigned : Bool) :
    (known r n o).encodeImmediate unsigned loc =
      ⟨settled n, ((known r n o).checkImmediate unsigned).diagnostics⟩ :=
  congrArg (Reported.mk (settled n)) (List.append_nil _)

theorem checkImmediate_known {a : Isa.Argument} (ha : a.bounds = (-0x8000, 0x8000))
    (hcut : a.cut n.toInt = n.toInt.bmod 0x10000) :
    (known r n o).checkImmediate false =
      ⟨(), if a.Fits n then [] else [o.truncation n 16 (a.cut n.toInt)]⟩ := by
  rw [hcut, ← Isa.toInt_signExtend_lowWord]
  exact report_unless r n o (Isa.fits_signed ha) _ _

theorem checkImmediate_known_unsigned :
    (known r n o).checkImmediate true = ⟨(), if Isa.Argument.unsigned.Fits n then []
      else [o.truncation n 16 (Isa.Argument.unsigned.cut n.toInt)]⟩ := by
  have hcut : (n &&& 0xffff).toInt = Isa.Argument.unsigned.cut n.toInt :=
    Isa.toInt_and_mask (k := 16) (by decide) (.inr rfl)
  rw [← hcut]
  exact report_unless r n o Isa.fits_unsigned _ _

theorem encodeMemory_known :
    (known r n o).encode .memory loc = ⟨some (⟨n, r⟩, none), if Isa.Argument.memory.Fits n then []
      else [o.truncation n 16 (Isa.Argument.memory.cut n.toInt)]⟩ := by
  rw [encode, encodeImmediate_known, checkImmediate_known r n o (a := .memory) rfl rfl]
  exact congrArg (Reported.mk _) (List.append_nil _)

theorem encodeBranch_known :
    (known r n o).encodeBranch loc = if Isa.fitsSigned n 16 then ⟨settled n, []⟩
      else (known r n o).refuse .branchOutOfRange [.int n.toInt] := rfl

theorem encodeTarget_known :
    (known r n o).encodeTarget loc =
      if n % 4 ≠ 0 then (known r n o).refuse .branchMisaligned []
      else ⟨settled (n >>> 2), if 0 ≤ n.toInt ∧ n.toInt < 0x10000000 then []
        else [.of .jumpRegion o.location [o.text] [.int n.toInt]]⟩ := by
  have hfits : Isa.fitsUnsigned n 28 ↔ 0 ≤ n.toInt ∧ n.toInt < 0x10000000 := by
    simp only [Isa.fitsUnsigned, decide_eq_true_eq]
    exact ⟨fun h => h.2, fun h => ⟨by decide, h⟩⟩
  have hsettled := settled_unless r n o hfits .jumpRegion [.int n.toInt] (settled (n >>> 2))
  rw [← hsettled]
  rfl

end Known

theorem shownAs_encode {a : Isa.Argument} (hsuits : o.form.suits a)
    (hr : ∀ r, o.form.register? = some r → r.index < 32) {op : Isa.Operand}
    {ref : Option Reference} {ds : List Diagnostic}
    (h : (known (o.form.register?.getD .zero) n o).encode a loc = ⟨some (op, ref), ds⟩) :
    ref = none ∧ o.ShownAs a n (a.decode (a.encode op)) ds := by
  cases a with
  | rs | rt | rd =>
    obtain ⟨r, hform⟩ := OperandForm.eq_register_of_suits hsuits rfl
    have hlt : r.index < 32 := hr r (by rw [hform]; rfl)
    cases h
    rw [hform]
    exact ⟨rfl, r, hform, Isa.Argument.decode_encode (Isa.inRange_register rfl hlt), rfl⟩
  | shamt =>
    rw [encode, encodeShift_known] at h
    cases h
    exact ⟨rfl, rfl, o.heldIn_decode_encode .shamt n .zero⟩
  | immediate =>
    rw [encode, encodeImmediate_known, checkImmediate_known _ n o (a := .immediate) rfl rfl] at h
    cases h
    exact ⟨rfl, rfl, o.heldIn_decode_encode .immediate n .zero⟩
  | unsigned =>
    rw [encode, encodeImmediate_known, checkImmediate_known_unsigned] at h
    cases h
    exact ⟨rfl, rfl, o.heldIn_decode_encode .unsigned n .zero⟩
  | memory =>
    rw [encodeMemory_known] at h
    cases h
    obtain ⟨base, offset, hform⟩ := OperandForm.eq_memory_of_suits hsuits
    have hbase : o.form.register?.getD .zero = base := by rw [hform]; rfl
    rw [hbase]
    refine ⟨rfl, ⟨offset, ?_⟩, o.heldIn_decode_encode .memory n base⟩
    have hread : (Isa.Argument.memory.decode (Isa.Argument.memory.encode ⟨n, base⟩)).base = base :=
      Isa.Argument.base_decode_encode (hr base (by rw [hform]; rfl))
    exact hform.trans (congrArg (OperandForm.memory · offset) hread.symm)
  | branch =>
    rw [encode, encodeBranch_known] at h
    split at h
    · next hfits =>
      cases h
      have hn := (Isa.fits_signed (a := .branch) rfl).mp hfits
      exact ⟨rfl, Isa.Argument.decode_encode ⟨hn.1, hn.2, rfl⟩, rfl⟩
    · cases h
  | target =>
    rw [encode, encodeTarget_known] at h
    split at h
    · cases h
    · next hmod =>
      cases h
      refine ⟨rfl, rfl, ?_, rfl⟩
      -- The field counts words, so that nothing is lost but the region in front of it.
      have hdvd := Isa.dvd_toInt_of_mod_four (not_not.mp hmod)
      have hshift := Isa.toInt_shiftRight_two n
      rw [Isa.Argument.value_decode_encode]
      change (n >>> 2).toInt % 0x4000000 = _
      omega

end OperandValue

theorem ExprValue.eq_constant {v : ExprValue} (h : v.isRelocatable = false) :
    v = .constant v.number := by
  obtain ⟨⟨n, ⟨bytes⟩⟩, r⟩ := v
  simp only [isRelocatable, Address.isRelocatable, RawText.isEmpty, Bool.or_eq_false_iff,
    Bool.not_eq_false', List.isEmpty_iff, Option.isSome_eq_false_iff, Option.isNone_iff_eq_none] at h
  obtain ⟨rfl, rfl⟩ := h
  rfl

namespace SourceOperand

def valueOf (o : SourceOperand) (n : Int64) : OperandValue :=
  .known (o.form.register?.getD .zero) n o

variable {ctx : EvalContext} {o : SourceOperand} {n : Int64}

theorem evaluate_constant (h : o.constant? ctx = some n) :
    Encoder.evaluate ctx o = .ok ⟨some (o.valueOf n), []⟩ := by
  unfold constant? at h
  unfold Encoder.evaluate
  dsimp only
  split
  · next hnone =>
    rw [hnone] at h
    cases h
    rfl
  · next e he =>
    rw [he] at h
    dsimp only at h
    split at h
    · next r hr =>
      obtain ⟨v, hv, h⟩ := Option.bind_eq_some_iff.mp h
      split at h
      · cases h
      · next hrel =>
        cases h
        have hsilent : (e.eval ctx).Quiet (fun _ => true) fun x => x.isSome := e.eval_quiet ctx
        have hquiet : r.diagnostics = [] := List.eq_nil_iff_forall_not_mem.mpr fun d hd => by
          cases hsilent r hr (by rw [hv]; rfl) d hd
        have hconstant := v.eq_constant (Bool.not_eq_true _ ▸ hrel)
        refine bind_eq_ok.mpr ⟨r, ⟨_, []⟩, hr, pure_eq_ok.mpr rfl, ?_⟩
        rw [hv, hquiet, valueOf, OperandValue.known, ← hconstant]
        rfl
    · cases h

end SourceOperand

namespace Isa.Register

theorem index_of_lt {n : Nat} (h : n < 32) : (⟨n.toUInt8⟩ : Register).index < 32 := by
  rw [UInt8.lt_iff_toNat_lt]
  change n % 256 < 32
  omega

theorem index_ofName? {name : String} {r : Register} (h : ofName? name = some r) :
    r.index < 32 := by
  unfold ofName? at h
  split at h
  · cases h
  · split at h
    · unfold ofNumber? at h
      split at h
      · cases h
      · obtain ⟨n, -, h⟩ := Option.bind_eq_some_iff.mp h
        split at h
        · next hlt =>
          cases h
          exact index_of_lt hlt
        · cases h
    · split at h
      · next n hn =>
        cases h
        exact index_of_lt (List.findIdx?_eq_some_iff_getElem.mp hn).1
      · unfold ofAlias? at h
        split at h
        · cases h
          decide
        · cases h

theorem index_parse? {text : String} {r : Register} (h : parse? text = some r) : r.index < 32 := by
  unfold parse? at h
  split at h
  · exact index_ofName? h
  · cases h

end Isa.Register

namespace SourceOperand

theorem index_parseRegister {t : Token} {r : Isa.Register}
    (h : (parseRegister t).value = some r) : r.index < 32 := by
  unfold parseRegister at h
  split at h
  · next hr =>
    cases h
    exact Isa.Register.index_parse? hr
  · cases h

theorem index_parseForm {ts : List Token} {place : Source.Location} {f : OperandForm}
    (h : (parseForm ts place).value = some f) {r : Isa.Register} (hr : f.register? = some r) :
    r.index < 32 := by
  have hexpr : ∀ us, ((do return (← Expr.parse us place).map .expression :
      Reported (Option OperandForm)).value = some f) → r.index < 32 := fun us hus => by
    obtain ⟨e, -, rfl⟩ := Option.map_eq_some_iff.mp hus
    cases hr
  unfold parseForm at h
  split at h
  · split at h
    · obtain ⟨r', hr', rfl⟩ := Option.map_eq_some_iff.mp h
      cases hr
      exact index_parseRegister hr'
    · exact hexpr _ h
  · split at h
    · obtain ⟨r', hr', rfl⟩ := Option.map_eq_some_iff.mp h
      cases hr
      exact index_parseRegister hr'
    · obtain ⟨r', hr', h⟩ := Option.bind_eq_some_iff.mp h
      obtain ⟨e, -, rfl⟩ := Option.map_eq_some_iff.mp h
      cases hr
      exact index_parseRegister hr'
    · exact hexpr _ h

theorem index_parse {ts : List Token} {place : Source.Location} {o : SourceOperand}
    (h : (parse ts place).value = some o) {r : Isa.Register} (hr : o.form.register? = some r) :
    r.index < 32 := by
  unfold parse at h
  split at h
  · cases h
  · obtain ⟨f, hf, rfl⟩ := Option.map_eq_some_iff.mp h
    exact index_parseForm hf hr

end SourceOperand

namespace Encoder

theorem evaluateAll_constants {ctx : EvalContext} {os : List SourceOperand} {ns : List Int64}
    (h : List.Forall₂ (fun o n => o.constant? ctx = some n) os ns) :
    evaluateAll ctx os = .ok ⟨some (List.zipWith SourceOperand.valueOf os ns), []⟩ := by
  induction h with
  | nil => rfl
  | cons hn _ ih =>
    exact bind_eq_ok.mpr ⟨_, _, SourceOperand.evaluate_constant hn,
      bind_eq_ok.mpr ⟨_, ⟨_, []⟩, ih, pure_eq_ok.mpr rfl, rfl⟩, rfl⟩

theorem shown_encodeFields {ctx : EvalContext} {loc : Address} {as : List Isa.Argument}
    {os : List SourceOperand} {ns : List Int64}
    (hsuits : List.Forall₂ (fun a o => o.form.suits a) as os)
    (hn : List.Forall₂ (fun o n => o.constant? ctx = some n) os ns)
    (hr : ∀ o ∈ os, ∀ r, o.form.register? = some r → r.index < 32)
    {fs : Reported (List FieldValue)}
    (h : encodeFields loc as (List.zipWith SourceOperand.valueOf os ns) = .ok fs)
    (hall : fs.value.all Option.isSome) :
    ∃ ops, fs.value = ops.map (fun op => some (op, none)) ∧ OperandsShown as os ns
      (List.zipWith (fun a op => a.decode (a.encode op)) as ops) fs.diagnostics := by
  induction hsuits generalizing ns fs with
  | nil =>
    cases hn
    cases pure_eq_ok.mp h
    exact ⟨[], rfl, .nil⟩
  | @cons a o as os hsuit _ ih =>
    obtain ⟨n, ns, hn, hns, rfl⟩ := List.forall₂_cons_left_iff.mp hn
    obtain ⟨f, b, hf, hb, rfl⟩ := bind_eq_ok.mp h
    obtain ⟨gs, c, hgs, hc, rfl⟩ := bind_eq_ok.mp hb
    cases pure_eq_ok.mp hc
    have hf : (o.valueOf n).encode a loc = f := liftReported_eq_ok.mp hf
    obtain ⟨hsome, hall⟩ := Bool.and_eq_true_iff.mp hall
    obtain ⟨⟨op, ref⟩, hop⟩ := Option.isSome_iff_exists.mp hsome
    obtain ⟨ops, hops, hshown⟩ := ih hns (fun o ho => hr o (by simp [ho])) hgs hall
    have hencode : (o.valueOf n).encode a loc = ⟨some (op, ref), f.diagnostics⟩ := by
      rw [hf, ← hop]
    obtain ⟨rfl, hfirst⟩ := OperandValue.shownAs_encode hsuit (hr o (by simp)) hencode
    refine ⟨op :: ops, ?_, ?_⟩
    · rw [hop, hops]
      rfl
    · simpa using OperandsShown.cons hfirst hshown

section Words

variable {enc : Encoder} {ctx : EvalContext} {os : List SourceOperand} {ns : List Int64}
  {r : Reported (List EncodedWord × Bool)}

theorem encodeSteps_cons_eq_ok {loc : Address} {s : MachineStep} {ss : List MachineStep}
    (h : encodeSteps loc (s :: ss) = .ok r) :
    ∃ a b, encodeStep loc s = .ok a ∧ encodeSteps (loc.add 4) ss = .ok b ∧
      r = ⟨(a.value.1 :: b.value.1, a.value.2 && b.value.2), a.diagnostics ++ b.diagnostics⟩ := by
  obtain ⟨a, x, ha, hx, rfl⟩ := bind_eq_ok.mp h
  obtain ⟨b, y, hb, hy, rfl⟩ := bind_eq_ok.mp hx
  cases pure_eq_ok.mp hy
  exact ⟨a, b, ha, hb, by simp⟩

theorem encodeSteps_single_eq_ok {loc : Address} {s : MachineStep} {ws : List EncodedWord}
    {ds : List Diagnostic} (h : encodeSteps loc [s] = .ok ⟨(ws, true), ds⟩) :
    ∃ w, ws = [w] ∧ encodeStep loc s = .ok ⟨(w, true), ds⟩ := by
  obtain ⟨⟨⟨w, ok⟩, es⟩, b, hs, hb, hr⟩ := encodeSteps_cons_eq_ok h
  cases pure_eq_ok.mp hb
  simp only [Bool.and_true, List.append_nil, Reported.mk.injEq, Prod.mk.injEq] at hr
  obtain ⟨⟨rfl, rfl⟩, rfl⟩ := hr
  exact ⟨w, rfl, hs⟩

theorem encode_machine_constants {i : Isa.Instruction}
    (hn : List.Forall₂ (fun o n => o.constant? ctx = some n) os ns)
    (h : enc.encode ctx ⟨.machine i, os⟩ = .ok r) :
    encodeSteps ctx.location [⟨i, List.zipWith SourceOperand.valueOf os ns⟩] = .ok r := by
  obtain ⟨vs, b, hvs, hb, rfl⟩ := bind_eq_ok.mp h
  cases (evaluateAll_constants hn).symm.trans hvs
  obtain ⟨ss, c, hss, hc, rfl⟩ := bind_eq_ok.mp hb
  obtain ⟨steps, hsteps, rfl⟩ := liftExcept_eq_ok.mp hss
  cases hsteps
  exact hc

theorem encode_pseudo_constants {q : Pseudo}
    (hn : List.Forall₂ (fun o n => o.constant? ctx = some n) os ns)
    (h : enc.encode ctx ⟨.pseudo q, os⟩ = .ok r) :
    ∃ c ss s, checkConstants q.args (List.zipWith SourceOperand.valueOf os ns) = .ok c ∧
      enc.expand (.pseudo q) (List.zipWith SourceOperand.valueOf os ns) = .ok ss ∧
      encodeSteps ctx.location ss = .ok s ∧ r = ⟨s.value, c.diagnostics ++ s.diagnostics⟩ := by
  obtain ⟨vs, b, hvs, hb, rfl⟩ := bind_eq_ok.mp h
  cases (evaluateAll_constants hn).symm.trans hvs
  obtain ⟨c, d, hc, hd, rfl⟩ := bind_eq_ok.mp hb
  obtain ⟨ss, s, hss, hs, rfl⟩ := bind_eq_ok.mp hd
  obtain ⟨steps, hsteps, rfl⟩ := liftExcept_eq_ok.mp hss
  exact ⟨c, steps, s, hc, hsteps, hs, rfl⟩

theorem shown_machine {i : Isa.Instruction} (hi : i ∈ enc.table.instructions)
    (hsuits : List.Forall₂ (fun a o => o.form.suits a) i.args os)
    (hr : ∀ o ∈ os, ∀ r, o.form.register? = some r → r.index < 32)
    (hn : List.Forall₂ (fun o n => o.constant? ctx = some n) os ns) {ws : List EncodedWord}
    {ds : List Diagnostic} (h : enc.encode ctx ⟨.machine i, os⟩ = .ok ⟨(ws, true), ds⟩) :
    ∃ w xs, ws = [⟨w, none⟩] ∧ enc.table.decode w = some ⟨i, xs⟩ ∧
      OperandsShown i.args os ns xs ds := by
  obtain ⟨⟨w, ref⟩, rfl, hstep⟩ := encodeSteps_single_eq_ok (encode_machine_constants hn h)
  obtain ⟨fs, hfs, rfl, hw, href, hok⟩ := encodeStep_eq_ok hstep
  obtain ⟨ops, hops, hshown⟩ := shown_encodeFields hsuits hn hr hfs hok.symm
  have hread : fs.value.map (fun f => (f.map (·.1)).getD (.ofValue 0)) = ops := by
    rw [hops, List.map_map]
    exact List.map_id _
  have hnone : ref = none := href.trans (by rw [hops, lastReference_settled])
  rw [hread] at hw
  obtain ⟨hmatches, hdecode⟩ := Isa.Instruction.decode_of_encode (Isa.Table.mem_all hi) hw
  exact ⟨w, _, by rw [hnone], Isa.Table.decode_eq_some_iff.mpr ⟨hi, hmatches, hdecode.symm⟩, hshown⟩

/-- Whether two words put a number into a register in two halves, and a warning tells if not all of
it is in them. -/
def ShowsLoad (enc : Encoder) (o q : SourceOperand) (n : Int64) (ws : List EncodedWord)
    (ds : List Diagnostic) : Prop :=
  ∃ upper lower i j r high low, ws = [⟨upper, none⟩, ⟨lower, none⟩] ∧ o.form = .register r ∧
    enc.table.lookup "lui" = .found i ∧ enc.table.lookup "ori" = .found j ∧
    enc.table.decode upper = some ⟨i, [.ofRegister .assemblerTemporary, .ofValue high]⟩ ∧
    enc.table.decode lower =
      some ⟨j, [.ofRegister r, .ofRegister .assemblerTemporary, .ofValue low]⟩ ∧
    high.toInt * 0x10000 + low.toInt = n.toInt % 0x100000000 ∧
    ds = if -0x80000000 ≤ n.toInt ∧ n.toInt < 0x100000000 then []
      else [q.truncation n 32 (n.toInt % 0x100000000)]

theorem ShowsLoad.severity {o q : SourceOperand} {n : Int64} {ws : List EncodedWord}
    {ds : List Diagnostic} (h : enc.ShowsLoad o q n ws ds) : ∀ d ∈ ds, d.severity = .warning := by
  obtain ⟨_, _, _, _, _, _, _, -, -, -, -, -, -, -, rfl⟩ := h
  split <;> simp [SourceOperand.truncation, Problem.severity, Problem.entry]

theorem checkConstants_load (o q : SourceOperand) (k n : Int64) :
    checkConstants [.rt, .immediate] [o.valueOf k, q.valueOf n] =
      .ok ⟨(), if -0x80000000 ≤ n.toInt ∧ n.toInt < 0x100000000 then []
        else [q.truncation n 32 (n.toInt % 0x100000000)]⟩ := by
  have hrest : ((Isa.lowWord n).toNat : Int) = n.toInt % 0x100000000 := Isa.toNat_lowWord n
  have hcut : !Isa.fitsSigned n 32 ∧ !Isa.fitsUnsigned n 32 ↔
      ¬(-0x80000000 ≤ n.toInt ∧ n.toInt < 0x100000000) := by
    have hsigned : (Nat.pow 2 (32 - 1) : Int) = 0x80000000 := rfl
    have hunsigned : (Nat.pow 2 32 : Int) = 0x100000000 := rfl
    simp only [Isa.fitsSigned, Isa.fitsUnsigned, Bool.not_eq_true', decide_eq_false_iff_not, hsigned,
      hunsigned]
    omega
  rw [← hrest]
  change (do
    if Isa.Argument.immediate = .immediate ∧ !false ∧ !Isa.fitsSigned n 32 ∧
        !Isa.fitsUnsigned n 32 then
      (OperandValue.known _ n q).report .immediateTruncated
        [.int n.toInt, .int 32, .int (Isa.lowWord n).toNat]
    pure () : Guarded Unit) = _
  by_cases h : -0x80000000 ≤ n.toInt ∧ n.toInt < 0x100000000
  · rw [if_neg fun hn => hcut.mp hn.2.2 h, if_pos h]
    rfl
  · rw [if_pos ⟨rfl, rfl, hcut.mpr h⟩, if_neg h]
    rfl

theorem halves (n : Int64) :
    (Int64.ofNat (Isa.lowWord n >>> 16).toNat).toInt = n.toInt % 0x100000000 / 0x10000 ∧
      (n &&& 0xffff).toInt = n.toInt % 0x10000 := by
  have hlow := Isa.toNat_lowWord n
  have hlt := (Isa.lowWord n).toNat_lt
  have hshift : (Isa.lowWord n >>> 16).toNat = (Isa.lowWord n).toNat / 0x10000 := by
    rw [UInt32.toNat_shiftRight, Nat.shiftRight_eq_div_pow]
    rfl
  refine ⟨?_, Isa.toInt_and_mask (k := 16) (by decide) (.inr rfl)⟩
  rw [hshift, Int64.toInt_ofNat_of_lt (by omega)]
  omega

theorem decode_encodeStep {i : Isa.Instruction} (hi : i ∈ enc.table.instructions)
    {vs : List OperandValue} {ops : List Isa.Operand} {loc : Address}
    (hf : encodeFields loc i.args vs = .ok ⟨ops.map fun op => some (op, none), []⟩)
    (hops : List.Forall₂ Isa.Argument.InRange i.args ops) :
    ∃ w, encodeStep loc ⟨i, vs⟩ = .ok ⟨(⟨w, none⟩, true), []⟩ ∧
      enc.table.decode w = some ⟨i, ops⟩ := by
  obtain ⟨w, hw, hdecode⟩ := Isa.Table.decode_encoded hi hops
  have hread : (ops.map fun op => (some (op, none) : FieldValue)).map
      (fun f => (f.map (·.1)).getD (.ofValue 0)) = ops := by
    rw [List.map_map]
    exact List.map_id _
  refine ⟨w, bind_eq_ok.mpr ⟨_, ⟨_, []⟩, hf, bind_eq_ok.mpr
    ⟨⟨w, []⟩, _, liftExcept_eq_ok.mpr ⟨w, by rw [hread]; exact hw, rfl⟩, pure_eq_ok.mpr rfl, rfl⟩, ?_⟩,
    hdecode⟩
  simp [lastReference_settled]

theorem shown_load {name : String} {o q : SourceOperand} {k n : Int64}
    (hsuits : o.form.suits .rt)
    (hr : ∀ r, o.form.register? = some r → r.index < 32)
    (hn : List.Forall₂ (fun o n => o.constant? ctx = some n) [o, q] [k, n]) {ws : List EncodedWord}
    {ds : List Diagnostic}
    (h : enc.encode ctx ⟨.pseudo (.load name), [o, q]⟩ = .ok ⟨(ws, true), ds⟩) :
    enc.ShowsLoad o q n ws ds := by
  -- Both instructions are found by name in every version, so that the expansion is known.
  obtain ⟨i, hi, hia, hilook⟩ := Isa.exists_lasting "lui" [.rt, .unsigned] (by decide)
  obtain ⟨j, hj, hja, hjlook⟩ := Isa.exists_lasting "ori" [.rt, .rs, .unsigned] (by decide)
  obtain ⟨r, hform⟩ := OperandForm.eq_register_of_suits hsuits rfl
  obtain ⟨c, ss, s, hc, hss, hs, hwords⟩ := encode_pseudo_constants hn h
  cases (checkConstants_load o q k n).symm.trans hc
  have hsteps : enc.expand (.pseudo (.load name)) [o.valueOf k, q.valueOf n] =
      .ok [⟨i, [temporary, { q.valueOf n with part := .high }]⟩,
        ⟨j, [o.valueOf k, temporary, { q.valueOf n with part := .low }]⟩] := by
    refine expand_pseudo_eq_ok.mpr ⟨?_, rfl⟩
    simp only [Pseudo.load, List.mapM_cons, List.mapM_nil, expandStep, hilook, hjlook]
    rfl
  cases hsteps.symm.trans hss
  obtain ⟨hhigh, hlow⟩ := halves n
  have hi := mem_instructions_of_lookup (hilook enc.table)
  have hj := mem_instructions_of_lookup (hjlook enc.table)
  have htemporary : ∀ a : Isa.Argument, a.isRegister →
      a.InRange (.ofRegister .assemblerTemporary) := fun _ ha => Isa.inRange_register ha (by decide)
  have hregister : Isa.Argument.rt.InRange (.ofRegister r) :=
    Isa.inRange_register rfl (hr r (by rw [hform]; rfl))
  have hupper : List.Forall₂ Isa.Argument.InRange i.args
      [.ofRegister .assemblerTemporary, .ofValue (Int64.ofNat (Isa.lowWord n >>> 16).toNat)] := by
    rw [hia]
    exact .cons (htemporary _ rfl) (.cons (Isa.inRange_unsigned hhigh (by omega) (by omega)) .nil)
  have hlower : List.Forall₂ Isa.Argument.InRange j.args
      [.ofRegister r, .ofRegister .assemblerTemporary, .ofValue (n &&& 0xffff)] := by
    rw [hja]
    have hlast := Isa.inRange_unsigned hlow (by omega) (by omega)
    exact .cons hregister (.cons (htemporary _ rfl) (.cons hlast .nil))
  -- Neither field cuts anything off or leaves a reference.
  have hfupper : encodeFields ctx.location i.args [temporary, { q.valueOf n with part := .high }] =
      .ok ⟨[.ofRegister .assemblerTemporary, .ofValue (Int64.ofNat (Isa.lowWord n >>> 16).toNat)].map
        fun op => some (op, none), []⟩ := by
    rw [hia]
    rfl
  have hflower : encodeFields (ctx.location.add 4) j.args
      [o.valueOf k, temporary, { q.valueOf n with part := .low }] =
        .ok ⟨[.ofRegister r, .ofRegister .assemblerTemporary, .ofValue (n &&& 0xffff)].map
          fun op => some (op, none), []⟩ := by
    rw [hja, SourceOperand.valueOf, hform]
    rfl
  obtain ⟨upper, hupper, hdupper⟩ := decode_encodeStep hi hfupper hupper
  obtain ⟨lower, hlower, hdlower⟩ := decode_encodeStep hj hflower hlower
  cases (encodeSteps_cons hupper (encodeSteps_single hlower)).symm.trans hs
  cases hwords
  refine ⟨upper, lower, i, j, r, _, _, rfl, hform, hilook _, hjlook _, hdupper, hdlower, ?_, ?_⟩
  · omega
  · simp

/-- Whether the last of some words is a branch over a number of words. -/
def ShowsBranch (enc : Encoder) (n : Int64) (ws : List EncodedWord) : Prop :=
  ∃ w i xs, ws.getLast? = some ⟨w, none⟩ ∧ enc.table.decode w = some ⟨i, xs⟩ ∧
    i.args.getLast? = some .branch ∧ xs.getLast? = some (.ofValue n)

theorem shown_branchStep {i : Isa.Instruction} (hi : i ∈ enc.table.instructions)
    (ha : i.args.getLast? = some .branch) {vs : List OperandValue}
    (hl : vs.length + 1 = i.args.length) {q : SourceOperand} {n : Int64} {loc : Address}
    {w : EncodedWord} {ds : List Diagnostic}
    (h : encodeStep loc ⟨i, vs ++ [q.valueOf n]⟩ = .ok ⟨(w, true), ds⟩) :
    ds = [] ∧ enc.ShowsBranch n [w] := by
  have hi' := Isa.Table.mem_all hi
  obtain ⟨c, hc⟩ : ∃ c, i.encode (registersOf vs ++
      [(((q.valueOf n).encode .branch loc).value.map (·.1)).getD (.ofValue 0)]) = .ok c :=
    ⟨_, if_neg (by simp [registersOf, hl])⟩
  have hstep := encodeStep_eq hi' ha hl (q.valueOf n) loc hc
  have hbranch : (q.valueOf n).encode .branch loc = _ := OperandValue.encodeBranch_known _ n q loc
  split at hbranch
  · next hfits =>
    rw [hbranch] at hc hstep
    cases hstep.symm.trans h
    obtain ⟨hmatches, hdecode⟩ := Isa.Instruction.decode_of_encode hi' hc
    have hn := (Isa.fits_signed (a := .branch) rfl).mp hfits
    obtain ⟨as, has⟩ := List.getLast?_eq_some_iff.mp ha
    have hlen : as.length = (registersOf vs).length := by
      rw [has, List.length_append] at hl
      simpa [registersOf] using (Nat.succ.inj hl).symm
    have hlast : (i.decode c).getLast? = some (.ofValue n) := by
      rw [hdecode, has, List.zipWith_append hlen, List.zipWith_cons_cons, List.zipWith_nil_left,
        List.getLast?_concat]
      exact congrArg some (Isa.Argument.decode_encode ⟨hn.1, hn.2, rfl⟩)
    exact ⟨rfl, c, i, _, rfl, Isa.Table.decode_eq_some_iff.mpr ⟨hi, hmatches, rfl⟩, ha, hlast⟩
  · rw [hbranch] at hstep
    cases hstep.symm.trans h

theorem shown_branchSteps {front : List MachineStep} {s : MachineStep}
    (hfront : ∀ s ∈ front, (∀ b ∈ s.instruction.args, b.isRegister) ∧
      s.operands.length = s.instruction.args.length) {loc : Address} {ws : List EncodedWord}
    {ds : List Diagnostic} (h : encodeSteps loc (front ++ [s]) = .ok ⟨(ws, true), ds⟩) :
    ∃ fs place w, ws = fs ++ [w] ∧ encodeStep place s = .ok ⟨(w, true), ds⟩ := by
  induction front generalizing loc ws with
  | nil =>
    obtain ⟨w, rfl, hw⟩ := encodeSteps_single_eq_ok h
    exact ⟨[], loc, w, rfl, hw⟩
  | cons s' front ih =>
    obtain ⟨hregs, hlen⟩ := hfront s' (by simp)
    obtain ⟨f, hf⟩ := encodeStep_registers hregs hlen loc
    obtain ⟨a, ⟨⟨ws', ok⟩, es⟩, ha, hb, hr⟩ := encodeSteps_cons_eq_ok h
    cases hf.symm.trans ha
    simp only [Bool.true_and, List.nil_append, Reported.mk.injEq, Prod.mk.injEq] at hr
    obtain ⟨⟨rfl, rfl⟩, rfl⟩ := hr
    obtain ⟨fs, place, w, rfl, hw⟩ := ih (fun s hs => hfront s (by simp [hs])) hb
    exact ⟨_ :: fs, place, w, rfl, hw⟩

theorem checkConstants_eq_ok {as : List Isa.Argument} (has : .immediate ∉ as)
    {vs : List OperandValue} {c : Reported Unit} (h : checkConstants as vs = .ok c) :
    c.diagnostics = [] := by
  induction as generalizing vs with
  | nil =>
    cases pure_eq_ok.mp h
    rfl
  | cons a as ih =>
    obtain ⟨ha, has⟩ := List.ne_and_not_mem_of_not_mem_cons has
    cases vs with
    | nil => cases h
    | cons v vs =>
      rw [checkConstants, if_neg fun hn => ha hn.1.symm] at h
      exact ih has h

theorem shown_branch {q : Pseudo} (hq : q ∈ Pseudo.all) (ha : q.args.getLast? = some .branch)
    (hl : os.length = q.args.length)
    (hn : List.Forall₂ (fun o n => o.constant? ctx = some n) os ns) {ws : List EncodedWord}
    {ds : List Diagnostic} (h : enc.encode ctx ⟨.pseudo q, os⟩ = .ok ⟨(ws, true), ds⟩) :
    ∃ n, ns.getLast? = some n ∧ ds = [] ∧ enc.ShowsBranch n ws := by
  obtain ⟨as, has⟩ := List.getLast?_eq_some_iff.mp ha
  have himmediate : .immediate ∉ q.args := by
    intro hmem
    rw [has, List.mem_append, List.mem_singleton] at hmem
    have hregister := Pseudo.register_pattern q hq .immediate (by simpa [has] using hmem)
    cases hregister
  have hos : os ≠ [] := by
    rintro rfl
    simp [has] at hl
  have hlen := hn.length_eq
  have hns : ns ≠ [] := by
    rintro rfl
    exact hos (List.length_eq_zero_iff.mp hlen)
  -- The last operand is the target of the branch, and all others are registers.
  obtain ⟨os', o, rfl⟩ := (List.eq_nil_or_concat' os).resolve_left hos
  obtain ⟨ns', n, rfl⟩ := (List.eq_nil_or_concat' ns).resolve_left hns
  rw [List.length_append, List.length_append] at hlen
  replace hlen : os'.length = ns'.length := Nat.succ.inj hlen
  have hvalues : List.zipWith SourceOperand.valueOf (os' ++ [o]) (ns' ++ [n]) =
      List.zipWith SourceOperand.valueOf os' ns' ++ [o.valueOf n] := List.zipWith_append hlen
  obtain ⟨c, ss, s, hc, hss, hs, hwords⟩ := encode_pseudo_constants hn h
  have hquiet := checkConstants_eq_ok himmediate hc
  have hleading : (List.zipWith SourceOperand.valueOf os' ns').length + 1 = q.args.length := by
    simpa [← hlen] using hl
  obtain ⟨front, i, us, hi, hia, hil, -, hfront, hexpand⟩ := endsInBranch_pseudo enc hq ha hleading
  rw [hvalues] at hss
  cases (hexpand _).symm.trans hss
  rw [Reported.mk.injEq] at hwords
  obtain ⟨hwords, rfl⟩ := hwords
  obtain ⟨⟨ws', ok⟩, es⟩ := s
  cases hwords
  obtain ⟨fs, place, w, rfl, hw⟩ := shown_branchSteps hfront hs
  obtain ⟨rfl, w', j, xs, hlast, hshown⟩ := shown_branchStep hi hia hil hw
  refine ⟨n, List.getLast?_concat, by rw [hquiet]; rfl, w', j, xs, ?_, hshown⟩
  rw [List.getLast?_concat, ← hlast]
  rfl

end Words

/-- An instruction that is read and then encoded without an error, from operands that stand for
numbers, is decoded again as it is written. What a field cannot hold of its number is reported, and
nothing else is. -/
theorem encode_constants_shown (enc : Encoder) {t : Token} {operands : List (List Token)}
    {p : ParsedInstruction} (hp : (enc.read t operands).value = some p) {ctx : EvalContext}
    {ns : List Int64} (hn : List.Forall₂ (fun o n => o.constant? ctx = some n) p.operands ns)
    {ws : List EncodedWord} {ds : List Diagnostic} (h : enc.encode ctx p = .ok ⟨(ws, true), ds⟩) :
    match p.mnemonic with
    | .machine i => enc.table.lookup (Text.lower t.text) = .found i ∧ ∃ w xs, ws = [⟨w, none⟩] ∧
        enc.table.decode w = some ⟨i, xs⟩ ∧ OperandsShown i.args p.operands ns xs ds ∧
        ∀ d ∈ ds, d.severity = .warning
    | .pseudo q => Pseudo.ofName? (Text.lower t.text) = some q ∧
        (∀ name, q = .load name → ∃ o o' k n, p.operands = [o, o'] ∧ ns = [k, n] ∧
          enc.ShowsLoad o o' n ws ds ∧ ∀ d ∈ ds, d.severity = .warning) ∧
        (q.args.getLast? = some .branch → ∃ n, ns.getLast? = some n ∧ ds = [] ∧
          enc.ShowsBranch n ws) := by
  unfold read at hp
  rw [Reported.value_bind] at hp
  split at hp
  · cases hp
  -- Reading the operands already checked their forms and the numbers of their registers.
  · next m hm =>
    have hsuits := suits_parse hp
    have hr : ∀ o ∈ p.operands, ∀ r, o.form.register? = some r → r.index < 32 := by
      intro o ho r hr
      obtain ⟨arg, -, hparse⟩ := parse_of_mem_parse hp o ho
      exact SourceOperand.index_parse hparse hr
    obtain rfl := mnemonic_parse hp
    obtain ⟨m, os⟩ := p
    cases m with
    | machine i =>
      obtain ⟨w, xs, hws, hdecode, hshown⟩ :=
        shown_machine (mem_instructions_of_recognise hm) hsuits hr hn h
      exact ⟨lookup_of_recognise hm, w, xs, hws, hdecode, hshown, hshown.severity⟩
    | pseudo q =>
      refine ⟨ofName?_of_recognise hm, ?_, fun ha =>
        shown_branch (known_recognise hm) ha hsuits.length_eq.symm hn h⟩
      rintro name rfl
      obtain ⟨o, os', hsuit, hos, rfl⟩ := List.forall₂_cons_left_iff.mp hsuits
      obtain ⟨o', os', -, hnone, rfl⟩ := List.forall₂_cons_left_iff.mp hos
      obtain rfl := List.forall₂_nil_left_iff.mp hnone
      obtain ⟨k, ms, -, hms, rfl⟩ := List.forall₂_cons_left_iff.mp hn
      obtain ⟨n, ms', -, hnone, rfl⟩ := List.forall₂_cons_left_iff.mp hms
      obtain rfl := List.forall₂_nil_left_iff.mp hnone
      have hload := shown_load hsuit (hr o (by simp)) hn h
      exact ⟨o, o', k, n, rfl, rfl, hload, hload.severity⟩

/-- An immediate that is cut off, with the warning for it. -/
theorem encode_constants_shown_addiu :
    let enc := ({} : Settings).encoder
    let t : Token := ⟨"addiu", .instruction, ⟨"a.s", 1, 0⟩⟩
    let rt : Token := ⟨"$t0", .register, ⟨"a.s", 1, 6⟩⟩
    let rs : Token := ⟨"$sp", .register, ⟨"a.s", 1, 11⟩⟩
    let number : Token := ⟨"40000", .immediate, ⟨"a.s", 1, 16⟩⟩
    let ctx : EvalContext := ⟨fun _ => none, .relative ".text" 8⟩
    ∃ p ns ws ds i, (enc.read t [[rt], [rs], [number]]).value = some p ∧
      List.Forall₂ (fun o n => o.constant? ctx = some n) p.operands ns ∧
      enc.encode ctx p = .ok ⟨(ws, true), ds⟩ ∧ p.mnemonic = .machine i ∧ ds.length = 1 ∧
      enc.table.lookup (Text.lower t.text) = .found i ∧ ∃ w xs, ws = [⟨w, none⟩] ∧
        enc.table.decode w = some ⟨i, xs⟩ ∧ OperandsShown i.args p.operands ns xs ds ∧
        ∀ d ∈ ds, d.severity = .warning := by
  intro enc t rt rs number ctx
  let i : Isa.Instruction := .ofImmediate "addiu" 0x09 [.rt, .rs, .immediate]
  let o : SourceOperand := ⟨.expression (.integer 40000 number), number.location, number.text⟩
  let p : ParsedInstruction := ⟨.machine i,
    [⟨.register ⟨8⟩, rt.location, rt.text⟩, ⟨.register ⟨29⟩, rs.location, rs.text⟩, o]⟩
  have hp : (enc.read t [[rt], [rs], [number]]).value = some p := by decide +kernel
  have hn : List.Forall₂ (fun o n => o.constant? ctx = some n) p.operands [0, 0, 40000] :=
    .cons rfl (.cons rfl (.cons rfl .nil))
  have h : enc.encode ctx p = .ok ⟨([⟨0x27a89c40, none⟩], true),
      [.of .immediateTruncated o.location [o.text] [.int 40000, .int 16, .int (-25536)]]⟩ := by
    dsimp only [enc, ctx, p, i, o, number, rt, rs]
    rfl
  exact ⟨p, _, _, _, i, hp, hn, h, rfl, rfl, encode_constants_shown enc hp hn h⟩

end Encoder

end MipsToolchain
