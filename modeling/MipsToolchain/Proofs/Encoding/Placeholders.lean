import MipsToolchain.Proofs.Encoding.Steps
import MipsToolchain.Proofs.Isa.Decoding

namespace MipsToolchain

open Diagnostic Guarded

/-- What a field holds of the constant part of a reference until it is linked. -/
def RelocationKind.field (k : RelocationKind) (n : Int64) : Int64 :=
  match k with
  | .high16 => n >>> 16
  | .jump26 | .pcrel16 => n >>> 2
  | _ => n

/-- Whether a word holds the constant part of a reference, as far as the field has room for it. -/
def Reference.HoldsAddend (r : Reference) (w : UInt32) : Prop :=
  match r.kind with
  | .absolute32 => (w.toNat : Int) = r.addend.toInt % 0x100000000
  | .high16 => (w.toNat % 0x10000 : Int) = r.addend.toInt / 0x10000 % 0x10000
  | .low16 => (w.toNat % 0x10000 : Int) = r.addend.toInt % 0x10000
  | .jump26 => (w.toNat % 0x4000000 : Int) = r.addend.toInt / 4 % 0x4000000
  | .pcrel16 => (w.toNat % 0x10000 : Int) = r.addend.toInt / 4 % 0x10000
  | .unassigned _ => False

theorem Isa.toInt_shiftRight_sixteen (v : Int64) : (v >>> 16).toInt = v.toInt / 0x10000 := by
  have hb : (v >>> 16).toBitVec = v.toBitVec.sshiftRight 16 := by
    rw [Int64.toBitVec_shiftRight]
    rfl
  rw [← Int64.toInt_toBitVec, hb, BitVec.toInt_sshiftRight, Int64.toInt_toBitVec,
    Int.shiftRight_eq_div_pow]
  rfl

namespace OperandValue

variable {v : OperandValue} {loc : Address}

def kindIn (v : OperandValue) : Isa.Argument → RelocationKind
  | .branch => .pcrel16
  | .target => .jump26
  | _ => if v.part = .high then .high16 else .low16

theorem encodeImmediate_relocatable (hv : v.value.isRelocatable) (unsigned : Bool) (loc : Address) :
    v.encodeImmediate unsigned loc =
      pure (v.deferred (v.kindIn .immediate) loc
        ((v.kindIn .immediate).field v.value.number)) := by
  rw [encodeImmediate, if_pos hv]
  cases hp : v.part <;> simp [kindIn, hp, RelocationKind.field]

theorem encodeImmediate_constant (hv : v.value.isRelocatable = false) (unsigned : Bool)
    (loc : Address) : ∃ n, (v.encodeImmediate unsigned loc).value = settled n := by
  rw [encodeImmediate, if_neg (by simp [hv])]
  split
  · exact ⟨_, rfl⟩
  · exact ⟨_, rfl⟩
  · exact ⟨_, rfl⟩

theorem reference_encodeImmediate {unsigned : Bool} {op : Isa.Operand} {r : Reference}
    (h : (v.encodeImmediate unsigned loc).value = some (op, some r)) :
    r = ⟨loc, v.value.target, v.kindIn .immediate, v.value.number⟩ ∧
      op.value = (v.kindIn .immediate).field v.value.number := by
  cases hv : v.value.isRelocatable with
  | true =>
    rw [encodeImmediate_relocatable hv] at h
    cases h
    exact ⟨rfl, rfl⟩
  | false =>
    obtain ⟨n, hn⟩ := encodeImmediate_constant hv unsigned loc
    rw [hn] at h
    cases h

theorem reference_encodeDisplacement {words : Int64} {op : Isa.Operand} {r : Reference} :
    (v.encodeDisplacement words).value ≠ some (op, some r) := by
  unfold encodeDisplacement
  intro h
  split at h <;> cases h

theorem reference_encodeBranch {op : Isa.Operand} {r : Reference}
    (h : (v.encodeBranch loc).value = some (op, some r)) :
    r = ⟨loc, v.value.target, .pcrel16, v.value.number⟩ ∧ op.value = v.value.number >>> 2 := by
  unfold encodeBranch at h
  dsimp only at h
  split at h
  · exact absurd h reference_encodeDisplacement
  · split at h
    · split at h
      · cases h
      · exact absurd h reference_encodeDisplacement
    · split at h
      · cases h
      · cases h
        exact ⟨rfl, rfl⟩

theorem reference_encodeTarget {op : Isa.Operand} {r : Reference}
    (h : (v.encodeTarget loc).value = some (op, some r)) :
    r = ⟨loc, v.value.target, .jump26, v.value.number⟩ ∧ op.value = v.value.number >>> 2 := by
  unfold encodeTarget at h
  dsimp only at h
  split at h
  · cases h
  · split at h
    · cases h
      exact ⟨rfl, rfl⟩
    · split at h <;> cases h

theorem reference_encode {a : Isa.Argument} {op : Isa.Operand} {r : Reference}
    (h : (v.encode a loc).value = some (op, some r)) :
    (a.isHalf ∨ a = .target) ∧ r = ⟨loc, v.value.target, v.kindIn a, v.value.number⟩ ∧
      op.value = (v.kindIn a).field v.value.number := by
  cases a with
  | rs | rt | rd => cases h
  | shamt =>
    rw [encode, encodeShift] at h
    split at h
    · cases h
    · dsimp only at h
      split at h <;> cases h
  | immediate | unsigned => exact ⟨.inl rfl, reference_encodeImmediate h⟩
  | memory =>
    obtain ⟨⟨op', r'⟩, hf, heq⟩ := Option.map_eq_some_iff.mp h
    cases heq
    obtain ⟨hr, hvalue⟩ := reference_encodeImmediate hf
    exact ⟨.inl rfl, hr, hvalue⟩
  | branch => exact ⟨.inl rfl, reference_encodeBranch h⟩
  | target => exact ⟨.inr rfl, reference_encodeTarget h⟩

theorem isRelocatable_of_reference {a : Isa.Argument} {op : Isa.Operand} {r : Reference}
    (h : (v.encode a loc).value = some (op, some r)) : v.value.isRelocatable := by
  by_contra hrel
  rw [Bool.not_eq_true] at hrel
  have himmediate : ∀ unsigned op', (v.encodeImmediate unsigned loc).value ≠ some (op', some r) := by
    intro unsigned op' himm
    obtain ⟨n, hn⟩ := encodeImmediate_constant hrel unsigned loc
    rw [hn] at himm
    cases himm
  obtain ⟨hfield, -⟩ := reference_encode h
  cases a with
  | rs | rt | rd | shamt => rcases hfield with hfield | hfield <;> cases hfield
  | immediate | unsigned => exact himmediate _ _ h
  | memory =>
    obtain ⟨⟨op', r'⟩, hf, heq⟩ := Option.map_eq_some_iff.mp h
    cases heq
    exact himmediate _ _ hf
  | branch =>
    rw [encode, encodeBranch, if_pos (by simp [hrel])] at h
    exact reference_encodeDisplacement h
  | target =>
    rw [encode, encodeTarget] at h
    dsimp only at h
    split at h
    · cases h
    · rw [if_neg (by simp [hrel])] at h
      split at h <;> cases h

end OperandValue

namespace Isa.Instruction

theorem args_lui : (ofName? "lui").map (·.args) = some [.rt, .unsigned] := by decide

theorem args_ori : (ofName? "ori").map (·.args) = some [.rt, .rs, .unsigned] := by decide

theorem register_pattern : ∀ i ∈ all, ∀ a ∈ i.args.dropLast, a.isRegister := by
  decide

end Isa.Instruction

namespace Encoder

theorem fields_registers {as : List Isa.Argument} (has : ∀ a ∈ as, a.isRegister)
    {vs : List OperandValue} (hl : as.length = vs.length) (loc : Address) :
    List.zipWith (fun a v => (v.encode a loc).value) as vs =
      vs.map fun v => some (.ofRegister v.register, none) := by
  induction as generalizing vs with
  | nil =>
    rw [List.length_eq_zero_iff.mp hl.symm]
    rfl
  | cons a as ih =>
    match vs, hl with
    | v :: vs, hl =>
      have ha : (v.encode a loc).value = some (.ofRegister v.register, none) := by
        have hreg := has a (by simp)
        cases a <;> first | rfl | cases hreg
      rw [List.zipWith_cons_cons, List.map_cons, ha,
        ih (fun b hb => has b (by simp [hb])) (Nat.succ.inj hl)]

def frontRegisters (i : Isa.Instruction) (vs : List OperandValue) : List Isa.Operand :=
  (vs.take (i.args.length - 1)).map fun v => .ofRegister v.register

theorem fields_of_mem {i : Isa.Instruction} (hi : i ∈ Isa.Instruction.all) {a : Isa.Argument}
    {v : OperandValue} {vs : List OperandValue} (ha : a.isRegister = false)
    (hv : (a, v) ∈ i.args.zip vs) (hlen : i.args.length ≤ vs.length) (loc : Address) :
    List.zipWith (fun a v => (v.encode a loc).value) i.args vs =
      (frontRegisters i vs).map (fun op => some (op, none)) ++ [(v.encode a loc).value] := by
  have hne : i.args ≠ [] := List.ne_nil_of_mem (List.of_mem_zip hv).1
  obtain ⟨as, b, hargs⟩ : ∃ as b, i.args = as ++ [b] :=
    ⟨_, _, (List.dropLast_append_getLast hne).symm⟩
  have has : ∀ c ∈ as, c.isRegister := by
    have hpattern := Isa.Instruction.register_pattern i hi
    simpa [hargs] using hpattern
  have hlt : as.length < vs.length := by
    rw [hargs, List.length_append] at hlen
    exact hlen
  -- All arguments but the last are registers, so an operand that is none is at the end.
  have hsplit : vs = vs.take as.length ++ vs[as.length] :: vs.drop (as.length + 1) := by
    rw [List.getElem_cons_drop, List.take_append_drop]
  have htake : as.length = (vs.take as.length).length := by
    rw [List.length_take]
    omega
  have hlast : (a, v) = (b, vs[as.length]) := by
    rw [hargs, hsplit, List.zip_append htake, List.mem_append] at hv
    rcases hv with hv | hv
    · rw [has a (List.of_mem_zip hv).1] at ha
      cases ha
    · rw [List.zip_cons_cons] at hv
      simpa using hv
  have hfront : frontRegisters i vs = (vs.take as.length).map fun v => .ofRegister v.register := by
    simp [frontRegisters, hargs]
  cases hlast
  rw [hfront, List.map_map, hargs]
  conv_lhs => rw [hsplit]
  rw [List.zipWith_append htake, fields_registers has htake]
  rfl

theorem length_frontRegisters {i : Isa.Instruction} {vs : List OperandValue}
    (hne : i.args ≠ []) (hlen : i.args.length ≤ vs.length) :
    (frontRegisters i vs).length + 1 = i.args.length := by
  have hpos := List.length_pos_iff.mpr hne
  rw [frontRegisters, List.length_map, List.length_take]
  omega

theorem filterMap_settled (ops : List Isa.Operand) :
    (ops.map fun op => (some (op, none) : FieldValue)).filterMap (fun f => f.bind (·.2)) = [] := by
  simp

theorem lastReference_registers (regs : List Isa.Operand) (op : Isa.Operand)
    (ref : Option Reference) :
    lastReference (regs.map (fun op => some (op, none)) ++ [some (op, ref)]) = ref := by
  rw [lastReference, List.filterMap_append, filterMap_settled]
  cases ref <;> rfl

section Steps

variable {loc : Address} {s : MachineStep} {r : Reported (EncodedWord × Bool)} {a : Isa.Argument}
  {v : OperandValue}

theorem encodeStep_last (h : encodeStep loc s = .ok r)
    (hi : s.instruction ∈ Isa.Instruction.all) (ha : a.isRegister = false)
    (hv : (a, v) ∈ s.instruction.args.zip s.operands) {op : Isa.Operand} {ref : Option Reference}
    (hop : (v.encode a loc).value = some (op, ref)) :
    r.value.1.reference = ref ∧
      (frontRegisters s.instruction s.operands ++ [op]).length = s.instruction.args.length ∧
      s.instruction.encode (frontRegisters s.instruction s.operands ++ [op]) =
        .ok r.value.1.value := by
  obtain ⟨fs, hfs, -, hword, hlast, -⟩ := encodeStep_eq_ok h
  obtain ⟨hlen, hval, -⟩ := encodeFields_eq_ok hfs
  rw [fields_of_mem hi ha hv hlen, hop] at hval
  rw [hval, lastReference_registers] at hlast
  rw [hval, List.map_append, List.map_map] at hword
  refine ⟨hlast, ?_, ?_⟩
  · rw [List.length_append]
    exact length_frontRegisters (List.ne_nil_of_mem (List.of_mem_zip hv).1) hlen
  · rw [← hword]
    congr 2
    exact (List.map_id _).symm

theorem exists_operand_of_reference (h : encodeStep loc s = .ok r) {q : Reference}
    (hq : r.value.1.reference = some q) : ∃ a v op, a.isRegister = false ∧
      (a, v) ∈ s.instruction.args.zip s.operands ∧ (v.encode a loc).value = some (op, some q) := by
  obtain ⟨fs, hfs, -, -, hlast, -⟩ := encodeStep_eq_ok h
  obtain ⟨-, hval, -⟩ := encodeFields_eq_ok hfs
  rw [hq] at hlast
  obtain ⟨f, hf, hbind⟩ := List.mem_filterMap.mp (List.mem_of_getLast? hlast.symm)
  obtain ⟨⟨op, r'⟩, rfl, rfl⟩ := Option.bind_eq_some_iff.mp hbind
  rw [hval, ← List.map_uncurry_zip_eq_zipWith] at hf
  obtain ⟨⟨a, v⟩, hmem, hav⟩ := List.mem_map.mp hf
  refine ⟨a, v, op, ?_, hmem, hav⟩
  cases a with
  | rs | rt | rd => cases hav
  | _ => rfl

end Steps

end Encoder

namespace EncodedWord

def FitsAt (w : EncodedWord) (loc : Address) : Prop :=
  ∀ r, w.reference = some r → r.location = loc ∧ r.HoldsAddend w.value

/-- A word that is not the upper half of an address, or else is followed by the lower half. -/
def PairedWith (w : EncodedWord) (next : Option EncodedWord) : Prop :=
  ∀ r, w.reference = some r → r.kind = .high16 → ∃ w' q, next = some w' ∧
    w'.reference = some q ∧ q.kind = .low16 ∧ q.symbol = r.symbol ∧ q.addend = r.addend

def WellEncoded : Address → List EncodedWord → Prop
  | _, [] => True
  | loc, w :: ws => w.FitsAt loc ∧ w.PairedWith ws.head? ∧ WellEncoded (loc.add 4) ws

theorem wellEncoded_zeros (loc : Address) (count : Nat) :
    WellEncoded loc (List.replicate count zero) := by
  induction count generalizing loc with
  | zero => trivial
  | succ count ih =>
    refine ⟨fun r h => ?_, fun r h => ?_, ih _⟩ <;> cases h

theorem WellEncoded.fitsAt_add {loc : Address} {ws : List EncodedWord} (h : WellEncoded loc ws)
    {k : Nat} {w : EncodedWord} (hw : ws[k]? = some w) :
    w.FitsAt (loc.add (Int64.ofNat (4 * k))) := by
  induction ws generalizing loc k with
  | nil => cases hw
  | cons w' ws ih =>
    obtain ⟨hfits, -, hws⟩ := h
    cases k with
    | zero =>
      cases hw
      have hstart : loc.add (Int64.ofNat (4 * 0)) = loc :=
        congrArg (Address.mk · loc.sectionName) (Int64.add_zero loc.value)
      rwa [hstart]
    | succ k =>
      have hnext : (loc.add 4).add (Int64.ofNat (4 * k)) =
          loc.add (Int64.ofNat (4 * (k + 1))) := by
        have hfour : (4 : Int64) + Int64.ofNat (4 * k) = Int64.ofNat (4 * (k + 1)) := by
          rw [Nat.mul_succ, Nat.add_comm, Int64.ofNat_add]
          rfl
        rw [Address.add, Address.add, Address.add, Int64.add_assoc, hfour]
      exact hnext ▸ ih hws hw

end EncodedWord

theorem Isa.holdsAddend_half {r : Reference} (w : UInt32)
    (hk : r.kind = .high16 ∨ r.kind = .low16 ∨ r.kind = .pcrel16) :
    r.HoldsAddend (withImmediateField w (lowWord (r.kind.field r.addend))) := by
  have hlow := toNat_lowWord (r.kind.field r.addend)
  unfold Reference.HoldsAddend
  rcases hk with hk | hk | hk <;>
    (rw [hk] at hlow ⊢
     dsimp only [RelocationKind.field] at hlow ⊢
     rw [toNat_withImmediateField])
  · rw [toInt_shiftRight_sixteen] at hlow
    omega
  · omega
  · rw [toInt_shiftRight_two] at hlow
    omega

theorem Isa.holdsAddend_jump {r : Reference} (w : UInt32) (hk : r.kind = .jump26) :
    r.HoldsAddend (withJumpField w (lowWord (r.addend >>> 2))) := by
  have hlow := toNat_lowWord (r.addend >>> 2)
  rw [toInt_shiftRight_two] at hlow
  rw [Reference.HoldsAddend, hk, toNat_withJumpField]
  dsimp only
  omega

namespace Encoder

open EncodedWord

theorem encodeStep_reference {loc : Address} {s : MachineStep} {r : Reported (EncodedWord × Bool)}
    (h : encodeStep loc s = .ok r) (hi : s.instruction ∈ Isa.Instruction.all) {q : Reference}
    (hq : r.value.1.reference = some q) : q.HoldsAddend r.value.1.value ∧
      ∃ a v, (a, v) ∈ s.instruction.args.zip s.operands ∧
        q = ⟨loc, v.value.target, v.kindIn a, v.value.number⟩ := by
  obtain ⟨a, v, op, ha, hv, hop⟩ := exists_operand_of_reference h hq
  obtain ⟨hfield, rfl, hvalue⟩ := OperandValue.reference_encode hop
  obtain ⟨-, hlen, hword⟩ := encodeStep_last h hi ha hv hop
  have hargs := (List.of_mem_zip hv).1
  have hop' : op = { op with value := (v.kindIn a).field v.value.number } := by rw [← hvalue]
  refine ⟨?_, a, v, hv, rfl⟩
  rcases hfield with hhalf | rfl
  · obtain ⟨w, hw⟩ := Isa.Instruction.encode_half hi hargs hhalf hlen
    rw [hop', hw, Except.ok.injEq] at hword
    rw [← hword]
    refine Isa.holdsAddend_half w ?_
    dsimp only
    cases a with
    | rs | rt | rd | shamt | target => cases hhalf
    | branch => exact .inr (.inr rfl)
    | immediate | unsigned | memory =>
      unfold OperandValue.kindIn
      dsimp only
      split <;> simp
  · obtain ⟨hpattern, -⟩ := Isa.Instruction.jump_pattern _ hi hargs
    have hfront : frontRegisters s.instruction s.operands = [] := by simp [frontRegisters, hpattern]
    obtain ⟨w, hw⟩ := Isa.Instruction.encode_jump hi hargs op
    rw [hfront, hop', List.nil_append, hw, Except.ok.injEq] at hword
    rw [← hword]
    exact Isa.holdsAddend_jump w rfl

theorem fitsAt_encodeStep {loc : Address} {s : MachineStep} {r : Reported (EncodedWord × Bool)}
    (h : encodeStep loc s = .ok r) (hi : s.instruction ∈ Isa.Instruction.all) :
    r.value.1.FitsAt loc := by
  intro q hq
  obtain ⟨hholds, a, v, -, rfl⟩ := encodeStep_reference h hi hq
  exact ⟨rfl, hholds⟩

theorem pairedWith_encodeStep {loc : Address} {s : MachineStep} {r : Reported (EncodedWord × Bool)}
    (h : encodeStep loc s = .ok r) (hi : s.instruction ∈ Isa.Instruction.all)
    (hs : ∀ v ∈ s.operands, v.part ≠ .high) (next : Option EncodedWord) :
    r.value.1.PairedWith next := by
  intro q hq hhigh
  obtain ⟨-, a, v, hv, rfl⟩ := encodeStep_reference h hi hq
  have hpart := hs v (List.of_mem_zip hv).2
  cases a <;> simp [OperandValue.kindIn, hpart] at hhigh

theorem wellEncoded_encodeSteps (loc : Address) {ss : List MachineStep}
    (hss : ∀ s ∈ ss, s.instruction ∈ Isa.Instruction.all ∧ ∀ v ∈ s.operands, v.part ≠ .high) :
    (encodeSteps loc ss).Ensures fun x => WellEncoded loc x.1 := by
  induction ss generalizing loc with
  | nil => exact .pure trivial
  | cons s ss ih =>
    rw [encodeSteps]
    refine .bind fun r hr => ?_
    obtain ⟨hi, hpart⟩ := hss s (by simp)
    refine .andThen (ih (loc.add 4) fun s' hs' => hss s' (by simp [hs'])) fun rest hws => ?_
    exact .pure ⟨fitsAt_encodeStep hr hi, pairedWith_encodeStep hr hi hpart _, hws⟩

theorem encodeSteps_eq_ok {loc : Address} {ss : List MachineStep}
    {x : Reported (List EncodedWord × Bool)} (h : encodeSteps loc ss = .ok x) :
    List.Forall₂ (fun p w => ∃ r, encodeStep p.1 p.2 = .ok r ∧ r.value.1 = w)
      (placed loc ss) x.value.1 := by
  induction ss generalizing loc x with
  | nil =>
    cases pure_eq_ok.mp h
    exact .nil
  | cons s ss ih =>
    obtain ⟨r, b, hr, hb, rfl⟩ := bind_eq_ok.mp h
    obtain ⟨y, c, hy, hc, rfl⟩ := bind_eq_ok.mp hb
    cases pure_eq_ok.mp hc
    exact .cons ⟨r, hr, rfl⟩ (ih hy)

theorem wellEncoded_split {loc : Address} {i j : Isa.Instruction}
    (hi : i ∈ Isa.Instruction.all) (hj : j ∈ Isa.Instruction.all)
    (hia : i.args = [.rt, .unsigned]) (hja : j.args = [.rt, .rs, .unsigned])
    {v t u u' : OperandValue} (hu : u.part = .whole) (hu' : u'.part = .whole) :
    (encodeSteps loc [⟨i, [t, { v with part := .high }]⟩,
      ⟨j, [u, u', { v with part := .low }]⟩]).Ensures fun x => WellEncoded loc x.1 := by
  rintro ⟨⟨ws, ok⟩, ds⟩ hx
  cases encodeSteps_eq_ok hx with
  | cons hupper hrest =>
    obtain ⟨r, hr, rfl⟩ := hupper
    cases hrest with
    | cons hlower hrest =>
      obtain ⟨q, hq, rfl⟩ := hlower
      cases hrest
      refine ⟨fitsAt_encodeStep hr hi, fun p hp _ => ⟨q.value.1, ?_⟩, fitsAt_encodeStep hq hj,
        pairedWith_encodeStep hq hj (by simp [hu, hu']) _, trivial⟩
      -- The upper half has a reference only if the value is relocatable, and then so has the lower.
      obtain ⟨a, x, op, ha, hx, hop⟩ := exists_operand_of_reference hr hp
      have hlast : a = .unsigned ∧ x = { v with part := .high } := by
        rw [hia] at hx
        rcases List.mem_cons.mp hx with hx | hx
        · cases hx
          cases ha
        · simpa using hx
      obtain ⟨rfl, rfl⟩ := hlast
      have hrel : v.value.isRelocatable := by
        by_contra hc
        obtain ⟨n, hn⟩ := OperandValue.encodeImmediate_constant (v := { v with part := .high })
          (Bool.not_eq_true _ ▸ hc) true loc
        rw [OperandValue.encode, hn] at hop
        cases hop
      obtain ⟨-, rfl, -⟩ := OperandValue.reference_encode hop
      have hlow := OperandValue.encodeImmediate_relocatable (v := { v with part := .low }) hrel
        true (loc.add 4)
      obtain ⟨href, -⟩ := encodeStep_last hq hj (a := .unsigned) rfl (by simp [hja])
        (congrArg Reported.value hlow)
      exact ⟨_, rfl, href, rfl, rfl, rfl⟩

end Encoder

def Mnemonic.Known : Mnemonic → Prop
  | machine i => i ∈ Isa.Instruction.all
  | pseudo p => p ∈ Pseudo.all

def ExpansionOperand.isHigh : ExpansionOperand → Bool
  | high _ => true
  | _ => false

theorem Pseudo.eq_load_or : ∀ p ∈ Pseudo.all,
    p = Pseudo.load p.name ∨ ∀ step ∈ p.expansion, ∀ o ∈ step.2, o.isHigh = false := by
  decide

namespace Encoder

open EncodedWord

theorem known_recognise {enc : Encoder} {t : Token} {m : Mnemonic}
    (h : (enc.recognise t).value = some m) : m.Known := by
  cases m with
  | machine i => exact Isa.Table.mem_all (mem_instructions_of_recognise h)
  | pseudo q => exact List.mem_of_find?_eq_some (ofName?_of_recognise h)

theorem pick_whole {values : List OperandValue} (hvalues : ∀ v ∈ values, v.part = .whole) {k : Nat}
    {v : OperandValue} (h : elementAt values k = .ok v) : v.part = .whole :=
  hvalues v (List.mem_of_getElem? (elementAt_eq_ok.mp h))

theorem part_expandOperand {values : List OperandValue} (hvalues : ∀ v ∈ values, v.part = .whole)
    {o : ExpansionOperand} {v : OperandValue} (h : expandOperand values o = .ok v)
    (ho : o.isHigh = false) : v.part ≠ .high := by
  cases o with
  | register | constant =>
    cases h
    simp
  | whole k => simp [pick_whole hvalues h]
  | high => cases ho
  | low k =>
    obtain ⟨u, -, rfl⟩ := except_map_eq_ok.mp h
    simp

theorem expandStep_eq_ok {t : Isa.Table} {values : List OperandValue}
    {step : String × List ExpansionOperand} {s : MachineStep}
    (h : expandStep t values step = .ok s) : Isa.Instruction.ofName? step.1 = some s.instruction ∧
      List.Forall₂ (fun o v => expandOperand values o = .ok v) step.2 s.operands := by
  unfold expandStep at h
  split at h
  · next i hfound =>
    obtain ⟨ops, hops, hs⟩ := except_bind_eq_ok.mp h
    cases hs
    refine ⟨?_, mapM_eq_ok hops⟩
    unfold Isa.Table.lookup at hfound
    split at hfound
    · cases hfound
    · next hname =>
      split at hfound
      · cases hfound
        exact hname
      · cases hfound
  · cases h

theorem wellEncoded_load {loc : Address} {t : Isa.Table} {values : List OperandValue}
    (hvalues : ∀ v ∈ values, v.part = .whole) {name : String} {ss : List MachineStep}
    (h : List.Forall₂ (fun step s => expandStep t values step = .ok s)
      (Pseudo.load name).expansion ss) :
    (encodeSteps loc ss).Ensures fun x => WellEncoded loc x.1 := by
  cases h with
  | @cons _ s _ _ hupper h =>
    cases h with
    | @cons _ s' _ _ hlower h =>
      cases h
      obtain ⟨i, ops⟩ := s
      obtain ⟨j, ops'⟩ := s'
      obtain ⟨hi, hops⟩ := expandStep_eq_ok hupper
      obtain ⟨hj, hops'⟩ := expandStep_eq_ok hlower
      simp only [List.forall₂_cons_left_iff, List.forall₂_nil_left_iff] at hops hops'
      obtain ⟨a, _, ha, ⟨b, _, hb, rfl, rfl⟩, rfl⟩ := hops
      obtain ⟨c, _, hc, ⟨d, _, hd, ⟨e, _, he, rfl, rfl⟩, rfl⟩, rfl⟩ := hops'
      obtain ⟨v, hv, rfl⟩ := except_map_eq_ok.mp hb
      obtain ⟨v', hv', rfl⟩ := except_map_eq_ok.mp he
      cases hv.symm.trans hv'
      cases hd
      refine wellEncoded_split (List.mem_of_find?_eq_some hi) (List.mem_of_find?_eq_some hj) ?_ ?_
        (pick_whole hvalues hc) rfl
      · simpa [hi] using Isa.Instruction.args_lui
      · simpa [hj] using Isa.Instruction.args_ori

theorem wellEncoded_expand {loc : Address} {enc : Encoder} {m : Mnemonic} (hm : m.Known)
    {values : List OperandValue} (hvalues : ∀ v ∈ values, v.part = .whole) {ss : List MachineStep}
    (h : enc.expand m values = .ok ss) :
    (encodeSteps loc ss).Ensures fun x => WellEncoded loc x.1 := by
  cases m with
  | machine i =>
    cases h
    refine wellEncoded_encodeSteps loc fun s hs => ?_
    rw [List.mem_singleton.mp hs]
    exact ⟨hm, fun v hv => by simp [hvalues v hv]⟩
  | pseudo p =>
    have hsteps := forall₂_expand h
    rcases Pseudo.eq_load_or p hm with hload | hplain
    · rw [hload] at hsteps
      exact wellEncoded_load hvalues hsteps
    · refine wellEncoded_encodeSteps loc (forall_of_forall₂ hsteps fun step hstep s hs => ?_)
      obtain ⟨hi, hops⟩ := expandStep_eq_ok hs
      refine ⟨List.mem_of_find?_eq_some hi, forall_of_forall₂ hops fun o ho v hv => ?_⟩
      exact part_expandOperand hvalues hv (hplain step hstep o ho)

/-- The words of an instruction fit the places where they go, whatever the operands are. -/
theorem wellEncoded_encode {enc : Encoder} {ctx : EvalContext} {p : ParsedInstruction}
    (hp : p.mnemonic.Known) :
    (enc.encode ctx p).Ensures fun x => WellEncoded ctx.location x.1 := by
  intro r hr
  obtain ⟨vs, hvs, -, ⟨-, hval⟩ | ⟨values, ss, ws, hsome, hss, hws, hval, -⟩⟩ := encode_eq_ok hr
  · rw [hval]
    exact wellEncoded_zeros _ _
  · rw [← hval]
    have hvalues := hasValue_evaluateAll _ _ vs hvs values hsome
    have hparts : ∀ v ∈ values, v.part = .whole := forall_of_forall₂ hvalues fun _ _ _ h => h.whole
    exact wellEncoded_expand hp hparts hss ws hws

end Encoder

end MipsToolchain
