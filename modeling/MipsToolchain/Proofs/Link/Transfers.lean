import MipsToolchain.Proofs.Assembly.Trace
import MipsToolchain.Proofs.Encoding.Placeholders
import MipsToolchain.Proofs.Link.References

namespace MipsToolchain

open Diagnostic Guarded MipsToolchain.Module

namespace OperandValue

/-- Whether a branch to a value is settled when it is encoded, since the value is in the section of
the branch. -/
def isSettledAt (v : OperandValue) (loc : Address) : Bool :=
  v.value.reference.isNone && v.value.address.sectionName == loc.sectionName

theorem encodeBranch_cases {v : OperandValue} (hv : v.value.isRelocatable) (loc : Address) :
    (v.encodeBranch loc).Yields fun f =>
      v.isSettledAt loc = true ∧ (v.value.number - (loc.value + 4)) % 4 = 0 ∧
        Isa.fitsSigned ((v.value.number - (loc.value + 4)) >>> 2) 16 ∧
        f = settled ((v.value.number - (loc.value + 4)) >>> 2) ∨
      v.isSettledAt loc = false ∧ v.value.number % 4 = 0 ∧
        f = v.deferred .pcrel16 loc (v.value.number >>> 2) := by
  unfold encodeBranch
  dsimp only
  rw [hv]
  split
  · contradiction
  · split
    · next hs =>
      split
      · exact v.yields_refuse rfl _ _
      · next hmod =>
        unfold encodeDisplacement
        split
        · next hfits => exact .pure (.inl ⟨hs, not_not.mp hmod, hfits, rfl⟩)
        · exact v.yields_refuse rfl _ _
    · next hs =>
      split
      · exact v.yields_refuse rfl _ _
      · next hmod => exact .pure (.inr ⟨by simpa [isSettledAt] using hs, not_not.mp hmod, rfl⟩)

theorem encodeTarget_cases {v : OperandValue} (hv : v.value.isRelocatable) (loc : Address) :
    (v.encodeTarget loc).Yields fun f =>
      v.value.number % 4 = 0 ∧ f = v.deferred .jump26 loc (v.value.number >>> 2) := by
  unfold encodeTarget
  dsimp only
  rw [hv]
  split
  · exact v.yields_refuse rfl _ _
  · next hmod => exact .pure ⟨not_not.mp hmod, rfl⟩

end OperandValue

namespace Encoder

section Transfers

variable {p : Address × MachineStep} {w : EncodedWord} {v : OperandValue}

/-- In a word that was encoded without an error, the operand that is not a register has a value.
It comes behind the registers. -/
theorem EncodedAs.operand (h : EncodedAs p w) (hi : p.2.instruction ∈ Isa.Instruction.all)
    {a : Isa.Argument} (ha : a.isRegister = false)
    (hv : (a, v) ∈ p.2.instruction.args.zip p.2.operands) :
    errorCount (v.encode a p.1).diagnostics = 0 ∧ ∃ op regs,
      (v.encode a p.1).value = some (op, w.reference) ∧
        p.2.instruction.encode (regs ++ [op]) = .ok w.value := by
  obtain ⟨ds, hds, he⟩ := h
  obtain ⟨fs, hfs, rfl, -⟩ := encodeStep_eq_ok hds
  obtain ⟨-, -, herr⟩ := encodeFields_eq_ok hfs
  have hclean : errorCount (v.encode a p.1).diagnostics = 0 := Nat.le_zero.mp (he ▸ herr _ hv)
  obtain ⟨⟨op, ref⟩, hop⟩ := Option.isSome_iff_exists.mp (v.filled_encode p.1 a hclean).isSome
  obtain ⟨rfl, -, hword⟩ := encodeStep_last hds hi ha hv hop
  exact ⟨hclean, op, _, hop, hword⟩

theorem EncodedAs.branch (h : EncodedAs p w) (hi : p.2.instruction ∈ Isa.Instruction.all)
    (hv : (.branch, v) ∈ p.2.instruction.args.zip p.2.operands) :
    errorCount (v.encodeBranch p.1).diagnostics = 0 ∧ p.2.instruction.Matches w.value ∧
      ∃ op, (v.encodeBranch p.1).value = some (op, w.reference) ∧
        w.value.toNat % 0x10000 = (Isa.lowWord op.value).toNat % 0x10000 := by
  obtain ⟨hclean, op, regs, hop, hword⟩ := h.operand hi rfl hv
  obtain ⟨op', hlast, hmatch, hlow⟩ :=
    Isa.Instruction.encode_branch hi (List.of_mem_zip hv).1 hword
  cases (List.getLast?_concat (l := regs) (a := op)).symm.trans hlast
  exact ⟨hclean, hmatch, op, hop, hlow⟩

theorem EncodedAs.target (h : EncodedAs p w) (hi : p.2.instruction ∈ Isa.Instruction.all)
    (hv : (.target, v) ∈ p.2.instruction.args.zip p.2.operands) :
    errorCount (v.encodeTarget p.1).diagnostics = 0 ∧
      w.value.toNat / 0x4000000 = p.2.instruction.skeleton.toNat / 0x4000000 ∧
      ∃ op, (v.encodeTarget p.1).value = some (op, w.reference) ∧
        w.value.toNat % 0x4000000 = (Isa.lowWord op.value).toNat % 0x4000000 := by
  obtain ⟨hclean, op, regs, hop, hword⟩ := h.operand hi rfl hv
  obtain ⟨op', hlast, hupper, hlow⟩ :=
    Isa.Instruction.encode_target hi (List.of_mem_zip hv).1 hword
  cases (List.getLast?_concat (l := regs) (a := op)).symm.trans hlast
  exact ⟨hclean, hupper, op, hop, hlow⟩

end Transfers

end Encoder

/-- Files that were assembled without an error and linked into a program. -/
structure Linked (s : Settings) (files : List Source.File) (ms : List Module) (p : Program) :
    Prop where
  assembled : ∃ ds, assembleFiles s files = .ok ⟨ms, ds⟩ ∧ errorCount ds = 0
  sized : ∀ m ∈ ms, m.Sized
  linked : ∃ ds, link s ms = .ok ⟨some p, ds⟩

def Contains (s : Settings) (f : Source.File) (loc : Address) (step : MachineStep) : Prop :=
  ∃ steps, (machineSteps s f).Gives steps ∧ (loc, step) ∈ steps

def Program.WordAt (p : Program) (l : Layout) (o : ByteOrder) (i : Nat) (loc : Address)
    (w pc : UInt32) : Prop :=
  ∃ start, l.partStart? loc.sectionName i = some start ∧
    p.image.wordIn? o loc.sectionName (start + loc.offset) = some w ∧
    (p.image.section? loc.sectionName).map (·.pc (start + loc.offset)) = some pc

def build (s : Settings) (files : List Source.File) : Option (List Module × Program) :=
  match assembleFiles s files with
  | .error _ => none
  | .ok a =>
    if errorCount a.diagnostics = 0 then
      match link s a.value with
      | .error _ => none
      | .ok r => r.value.map (a.value, ·)
    else none

def Module.isSized (m : Module) : Bool := m.sections.all fun t => t.length < 0x8000000000000000

theorem Module.sized_of_isSized {m : Module} (h : m.isSized) : m.Sized := by
  intro n
  cases hs : m.section? n with
  | none => simp [offset, hs]
  | some t =>
    have ht := List.all_eq_true.mp h t (List.mem_of_find?_eq_some hs)
    simpa [offset, hs] using ht

theorem linked_of_build {s : Settings} {files : List Source.File} {ms : List Module} {p : Program}
    (h : build s files = some (ms, p)) (hs : ms.all isSized) : Linked s files ms p := by
  have hsized : ∀ m ∈ ms, m.Sized := fun m hm => sized_of_isSized (List.all_eq_true.mp hs m hm)
  unfold build at h
  cases ha : assembleFiles s files with
  | error e =>
    rw [ha] at h
    cases h
  | ok a =>
    rw [ha] at h
    dsimp only at h
    split at h
    · next he =>
      cases hl : link s a.value with
      | error e =>
        rw [hl] at h
        cases h
      | ok r =>
        rw [hl] at h
        obtain ⟨q, hq, heq⟩ := Option.map_eq_some_iff.mp h
        cases heq
        exact ⟨⟨a.diagnostics, ha, he⟩, hsized, r.diagnostics, by rw [hl, ← hq]⟩
    · cases h

def operandsOf (s : Settings) (f : Source.File) (a : Isa.Argument) :
    List (Address × MachineStep × OperandValue) :=
  match machineSteps s f with
  | .error _ => []
  | .ok r => r.value.flatMap fun x =>
    ((x.2.instruction.args.zip x.2.operands).filter (·.1 = a)).map fun y => (x.1, x.2, y.2)

theorem contains_of_mem_operandsOf {s : Settings} {f : Source.File} {a : Isa.Argument}
    {loc : Address} {step : MachineStep} {v : OperandValue}
    (h : (loc, step, v) ∈ operandsOf s f a) :
    Contains s f loc step ∧ (a, v) ∈ step.instruction.args.zip step.operands := by
  unfold operandsOf at h
  split at h
  · cases h
  · next r hr =>
    obtain ⟨⟨loc', step'⟩, hx, hy⟩ := List.mem_flatMap.mp h
    obtain ⟨⟨a', v'⟩, hzip, heq⟩ := List.mem_map.mp hy
    cases heq
    obtain ⟨hmem, ha⟩ := List.mem_filter.mp hzip
    cases of_decide_eq_true ha
    exact ⟨⟨r.value, .ofOk hr, hx⟩, hmem⟩

section Linked

variable {s : Settings} {files : List Source.File} {ms : List Module} {p : Program} {i : Nat}
  {f : Source.File} {m : Module} {loc : Address} {step : MachineStep} {v : OperandValue}

theorem Linked.issued (h : Linked s files ms p) (hf : files[i]? = some f) (hm : ms[i]? = some m)
    (hc : Contains s f loc step) :
    m.order = s.order ∧ m.references.Pairwise Reference.Disjoint ∧
      Environment.Issued s.encoder m (loc, step) := by
  obtain ⟨ds, ha, he⟩ := h.assembled
  obtain ⟨a, hfile, hea, hval⟩ := assembleFiles_eq_ok ha he hf
  obtain ⟨horder, ⟨ps, hps, hissued⟩, hdisj⟩ := assembleFile_spec hfile hea
  obtain ⟨steps, hsteps, hmem⟩ := hc
  cases hps.unique hsteps
  have hma : m = a.value := Option.some.inj (hm.symm.trans hval)
  subst hma
  have hsized := h.sized _ (List.mem_of_getElem? hm)
  exact ⟨horder, hdisj hsized, hissued hsized _ hmem⟩

theorem unreferenced_word {r : Reported (Option Program)} (hl : link s ms = .ok r)
    (hp : r.value = some p) (hm : ms[i]? = some m) {w : EncodedWord} (hw : m.Stored loc w)
    (hn : w.reference = none) : ∃ out start,
      Part (Layout.ofModules s.link ms) i p.image loc.sectionName out start ∧
      p.image.wordIn? m.order loc.sectionName (start + loc.offset) = some w.value := by
  obtain ⟨res, hres, -, hholds⟩ := link_module hl hp hm
  have hle := le_offset_of_wordIn? hw.word
  obtain ⟨out, start, hold⟩ := hholds _ (section?_of_lt_offset hle)
  have hsame : res.value.wordIn? m.order loc.sectionName loc.offset = some w.value := by
    rw [← hw.word]
    exact wordIn?_congr fun j hj => (untouched_linkReferences hres).bytes _ _ fun q hq =>
      hw.untouched hn q hq j hj
  refine ⟨out, start, hold.toPart, ?_⟩
  rw [hold.word (le_offset_of_wordIn? hsame), hsame]

/-- Whether the displacement of a branch has room for an addend, once that is cut to a word. -/
def FitsDisplacement (n : Int64) : Prop :=
  -0x20000 ≤ n.toInt.bmod 0x100000000 ∧ n.toInt.bmod 0x100000000 < 0x20000

theorem four_mul_bmod_iff {n : Int64} (h : n % 4 = 0) :
    4 * (n.toInt / 4).bmod 0x10000 % 0x100000000 = n.toInt % 0x100000000 ↔
      FitsDisplacement n := by
  have hdvd := Isa.dvd_toInt_of_mod_four h
  unfold FitsDisplacement
  rw [Int.bmod_def, Int.bmod_def]
  split <;> split <;> omega

theorem toInt_location (h : 0 ≤ loc.value.toInt) : loc.value.toInt = loc.offset := by
  rw [Address.offset, Int.toNat_of_nonneg h]

/-- A branch that was settled when it was encoded goes where it should, since both ends moved
together. -/
theorem branchTarget_settled {w : UInt32} {n : Int64} {base : Nat} (hloc : 0 ≤ loc.value.toInt)
    (hmod : (n - (loc.value + 4)) % 4 = 0)
    (hfits : Isa.fitsSigned ((n - (loc.value + 4)) >>> 2) 16)
    (hw : w.toNat % 0x10000 = (Isa.lowWord ((n - (loc.value + 4)) >>> 2)).toNat % 0x10000) :
    ((Isa.branchTarget (UInt32.ofNat (base + loc.offset))
      (Isa.signExtend (w &&& 0xffff) 16)).toNat : Int) =
      ((Int64.ofNat base).toInt + n.toInt) % 0x100000000 := by
  have hdvd := Isa.dvd_toInt_of_mod_four hmod
  have hloc := toInt_location hloc
  have hsub := Isa.toInt_sub_mod n (loc.value + 4)
  have hadd := Isa.toInt_add_mod loc.value 4
  have h4 : (4 : Int64).toInt = 4 := rfl
  have hbase := Isa.toInt_ofNat_mod base
  have hpc : (UInt32.ofNat (base + loc.offset)).toNat = (base + loc.offset) % 0x100000000 :=
    UInt32.toNat_ofNat'
  rw [Isa.toNat_branchTarget, Isa.toInt_signExtend16, Isa.bmod_of_low hw, Isa.bmod_of_fits hfits,
    Isa.toInt_shiftRight_two, hpc]
  omega

/-- A branch that is left to linking goes to its target plus what is left of the addend. -/
theorem branchTarget_deferred {w w' : UInt32} {n t delta : Int64} {base : Nat}
    (hloc : 0 ≤ loc.value.toInt) (hdelta : delta = t - (Int64.ofNat base + loc.value + 4))
    (hdvd : 4 ∣ delta.toInt) (hw : w.toNat % 0x10000 = (Isa.lowWord (n >>> 2)).toNat % 0x10000)
    (hw' : (w'.toNat : Int).bmod 0x10000 = (w.toNat : Int).bmod 0x10000 + delta.toInt / 4) :
    ((Isa.branchTarget (UInt32.ofNat (base + loc.offset))
      (Isa.signExtend (w' &&& 0xffff) 16)).toNat : Int) =
      (t.toInt + 4 * (n.toInt / 4).bmod 0x10000) % 0x100000000 := by
  have hloc := toInt_location hloc
  have hsub := Isa.toInt_sub_mod t (Int64.ofNat base + loc.value + 4)
  have hadd := Isa.toInt_add_mod (Int64.ofNat base + loc.value) 4
  have hadd' := Isa.toInt_add_mod (Int64.ofNat base) loc.value
  have h4 : (4 : Int64).toInt = 4 := rfl
  have hbase := Isa.toInt_ofNat_mod base
  have hpc : (UInt32.ofNat (base + loc.offset)).toNat = (base + loc.offset) % 0x100000000 :=
    UInt32.toNat_ofNat'
  rw [← hdelta] at hsub
  rw [Isa.toNat_branchTarget, Isa.toInt_signExtend16, hw', Isa.bmod_of_low hw,
    Isa.toInt_shiftRight_two, hpc]
  omega

theorem Part.wordAt {l : Layout} {out : OutputSection} {start : Nat} {o : ByteOrder} {w : UInt32}
    (hpart : Part l i p.image loc.sectionName out start)
    (hw : p.image.wordIn? o loc.sectionName (start + loc.offset) = some w) :
    p.WordAt l o i loc w (UInt32.ofNat (out.address + start + loc.offset)) := by
  refine ⟨start, hpart.partStart?, hw, ?_⟩
  rw [hpart.pc, Nat.add_assoc]

theorem branchTarget_near (pc w : UInt32) : ∃ d : Int, -0x8000 ≤ d ∧ d < 0x8000 ∧
    ((Isa.branchTarget pc (Isa.signExtend (w &&& 0xffff) 16)).toNat : Int) =
      (pc.toNat + 4 + 4 * d) % 0x100000000 := by
  refine ⟨(w.toNat : Int).bmod 0x10000, ?_, ?_, ?_⟩
  · rw [Int.bmod_def]
    split <;> omega
  · rw [Int.bmod_def]
    split <;> omega
  · rw [Isa.toNat_branchTarget, Isa.toInt_signExtend16]

theorem resolveReference_section {l : Layout} {gs : Globals} {img : Module} {out : OutputSection}
    {start : Nat} (hpart : Part l i img loc.sectionName out start) (hloc : loc.isRelocatable)
    (hs : (m.section? loc.sectionName).isSome) {r : Reference} (hr : r.symbol = loc.sectionName) :
    resolveReference l gs i m r = .ok (some (Int64.ofNat (out.address + start))) := by
  have hname : m.isSectionName loc.sectionName = true := by simp [isSectionName, hs]
  have hrel : (Address.relative loc.sectionName 0).isRelocatable := hloc
  have hzero : Int64.ofNat (out.address + start) + (Address.relative loc.sectionName 0).value =
      Int64.ofNat (out.address + start) := Int64.add_zero _
  rw [resolveReference, hr, if_pos hname, hpart.resolve hrel rfl, hzero]
  rfl

/-- Where a branch of a linked program goes. Its displacement is a signed half, and the address is
the right one exactly if it was settled when the branch was encoded or the addend fits. -/
theorem linked_branch_reaches_iff (h : Linked s files ms p) (hf : files[i]? = some f)
    (hm : ms[i]? = some m) (hc : Contains s f loc step)
    (hv : (.branch, v) ∈ step.instruction.args.zip step.operands) (hrel : v.value.isRelocatable) :
    ∃ t w pc target texts,
      resolveReference (Layout.ofModules s.link ms) p.globals i m
        ⟨loc, v.value.target, .pcrel16, v.value.number⟩ = .ok (some t) ∧
      p.WordAt (Layout.ofModules s.link ms) s.order i loc w pc ∧
      s.encoder.table.disassemble w pc =
        step.instruction.render (texts ++ ["0x" ++ Text.hexWord target]) ∧
      (∃ d : Int, -0x8000 ≤ d ∧ d < 0x8000 ∧
        (target.toNat : Int) = (pc.toNat + 4 + 4 * d) % 0x100000000) ∧
      ((target.toNat : Int) = (t.toInt + v.value.number.toInt) % 0x100000000 ↔
        v.isSettledAt loc ∨ FitsDisplacement v.value.number) := by
  obtain ⟨horder, hdisj, hissued⟩ := h.issued hf hm hc
  obtain ⟨ds, hl⟩ := h.linked
  obtain ⟨w, henc, hstored⟩ := hissued.word
  have hi := hissued.instruction
  have hb := (List.of_mem_zip hv).1
  obtain ⟨-, ho, ho', -⟩ := Isa.Instruction.branch_pattern _ (List.mem_filter.mp hi).1 hb
  obtain ⟨hclean, hmatch, op, hop, hlow⟩ := henc.branch (List.mem_filter.mp hi).1 hv
  rcases OperandValue.encodeBranch_cases hrel loc hclean with
    ⟨hset, hmod, hfits, hfield⟩ | ⟨hset, hmod, hfield⟩
  · -- The word was complete when it was stored, and no reference is about it.
    rw [hop, OperandValue.settled, Option.some.injEq, Prod.mk.injEq] at hfield
    obtain ⟨rfl, href⟩ := hfield
    obtain ⟨out, start, hpart, hw⟩ := unreferenced_word hl rfl hm hstored href
    obtain ⟨texts, htexts⟩ := Isa.Instruction.disassemble_branch hi hb hmatch
      (UInt32.ofNat (out.address + start + loc.offset))
    have hsome := section?_of_lt_offset (le_offset_of_wordIn? hstored.word)
    have htarget : v.value.target = loc.sectionName := by
      simp only [OperandValue.isSettledAt, Bool.and_eq_true, Option.isNone_iff_eq_none,
        beq_iff_eq] at hset
      rw [ExprValue.target, hset.1]
      exact hset.2
    refine ⟨_, w.value, _, _, texts, resolveReference_section hpart hissued.named hsome htarget,
      horder ▸ hpart.wordAt hw, htexts, branchTarget_near _ _, ?_⟩
    rw [branchTarget_settled hstored.inside hmod hfits hlow]
    simp [hset]
  · -- The word holds what is left of the addend, to which linking adds the distance to the target.
    rw [hop, OperandValue.deferred, Option.some.injEq, Prod.mk.injEq] at hfield
    obtain ⟨rfl, href⟩ := hfield
    obtain ⟨out, start, t, delta, w₀, w', hpart, ht, hdelta, hw₀, hrelocated, hw'⟩ :=
      link_reference hl rfl hm hdisj (hstored.tracked _ href) (fun hk => by cases hk)
    cases Option.some.inj (hstored.word.symm.trans hw₀)
    obtain ⟨hdvd, hupper, hdisp⟩ := relocatedWord_pcrel16 rfl hrelocated
    have hmatch' := hmatch.congr ho ho' hupper
    obtain ⟨texts, htexts⟩ := Isa.Instruction.disassemble_branch hi hb hmatch'
      (UInt32.ofNat (out.address + start + loc.offset))
    have hplace : delta = t - (Int64.ofNat (out.address + start) + loc.value + 4) := by
      rw [relocationDelta, if_pos rfl, hpart.resolve hissued.named rfl] at hdelta
      exact (Except.ok.inj hdelta).symm
    refine ⟨t, w', _, _, texts, ht, horder ▸ hpart.wordAt hw', htexts, branchTarget_near _ _, ?_⟩
    rw [branchTarget_deferred hstored.inside hplace hdvd hlow hdisp]
    have hiff := four_mul_bmod_iff hmod
    simp only [hset, Bool.false_eq_true, false_or, ← hiff]
    omega

theorem jumpTarget_linked {w w' pc : UInt32} {n t : Int64} (hn : n % 4 = 0) (ht : 4 ∣ t.toInt)
    (hw : w.toNat % 0x4000000 = (Isa.lowWord (n >>> 2)).toNat % 0x4000000)
    (hw' : (w'.toNat % 0x4000000 : Nat) = (w.toNat + t.toInt / 4) % 0x4000000) :
    ((Isa.jumpTarget pc (Int64.ofNat (w' >>> 0 &&& Isa.targetMask).toNat)).toNat : Int) =
      ((pc.toNat + 4) % 0x100000000 / 0x10000000 * 0x10000000 : Int) +
        (t.toInt + n.toInt) % 0x10000000 := by
  have hdvd := Isa.dvd_toInt_of_mod_four hn
  have hlow := Isa.toNat_lowWord (n >>> 2)
  rw [Isa.toInt_shiftRight_two] at hlow
  rw [Isa.toNat_jumpTarget]
  omega

/-- Where a jump of a linked program goes. It stays in the region of its delay slot, and the address
is the right one exactly if that is in this region. -/
theorem linked_jump_reaches_iff (h : Linked s files ms p) (hf : files[i]? = some f)
    (hm : ms[i]? = some m) (hc : Contains s f loc step)
    (hv : (.target, v) ∈ step.instruction.args.zip step.operands) (hrel : v.value.isRelocatable) :
    ∃ t w pc target,
      resolveReference (Layout.ofModules s.link ms) p.globals i m
        ⟨loc, v.value.target, .jump26, v.value.number⟩ = .ok (some t) ∧
      p.WordAt (Layout.ofModules s.link ms) s.order i loc w pc ∧
      s.encoder.table.disassemble w pc =
        step.instruction.render ["0x" ++ Text.hexWord target] ∧
      (target.toNat : Int) % 0x10000000 = (t.toInt + v.value.number.toInt) % 0x10000000 ∧
      ((target.toNat : Int) = (t.toInt + v.value.number.toInt) % 0x100000000 ↔
        (t.toInt + v.value.number.toInt) % 0x100000000 / 0x10000000 =
          ((pc + 4).toNat : Int) / 0x10000000) := by
  obtain ⟨horder, hdisj, hissued⟩ := h.issued hf hm hc
  obtain ⟨ds, hl⟩ := h.linked
  obtain ⟨w, henc, hstored⟩ := hissued.word
  have hi := hissued.instruction
  have hall := (List.mem_filter.mp hi).1
  have hb := (List.of_mem_zip hv).1
  obtain ⟨hclean, hskel, op, hop, hlow⟩ := henc.target hall hv
  obtain ⟨hmod, hfield⟩ := OperandValue.encodeTarget_cases hrel loc hclean
  rw [hop, OperandValue.deferred, Option.some.injEq, Prod.mk.injEq] at hfield
  obtain ⟨rfl, href⟩ := hfield
  obtain ⟨out, start, t, delta, w₀, w', hpart, ht, hdelta, hw₀, hrelocated, hw'⟩ :=
    link_reference hl rfl hm hdisj (hstored.tracked _ href) (fun hk => by cases hk)
  cases Option.some.inj (hstored.word.symm.trans hw₀)
  cases relocationDelta_eq hdelta (by simp)
  obtain ⟨hdvd, hupper, hsum⟩ := relocatedWord_jump26 rfl hrelocated
  have hmatch := Isa.Instruction.matches_target hall hb (hupper.trans hskel)
  refine ⟨_, w', _, _, ht, horder ▸ hpart.wordAt hw',
    Isa.Instruction.disassemble_target hi hb hmatch _, ?_, ?_⟩
  · rw [jumpTarget_linked hmod hdvd hlow hsum]
    omega
  · have h4 : (4 : UInt32).toNat = 4 := rfl
    rw [jumpTarget_linked hmod hdvd hlow hsum, UInt32.toNat_add, h4]
    omega

end Linked

def farBranch : Source.File := ⟨"a.s", ["b far + 0x40000"]⟩

def farLabel : Source.File := ⟨"b.s", [".globl far", "far: nop"]⟩

theorem linked_farBranch_misses : ∃ ms p m, ∃ v : OperandValue, ∃ loc step t w pc target texts,
    Linked {} [farBranch, farLabel] ms p ∧ ms[0]? = some m ∧ Contains {} farBranch loc step ∧
    (.branch, v) ∈ step.instruction.args.zip step.operands ∧
    resolveReference (Layout.ofModules {} ms) p.globals 0 m
      ⟨loc, v.value.target, .pcrel16, v.value.number⟩ = .ok (some t) ∧
    p.WordAt (Layout.ofModules {} ms) .big 0 loc w pc ∧
    Isa.Table.disassemble ⟨.standard⟩ w pc =
      step.instruction.render (texts ++ ["0x" ++ Text.hexWord target]) ∧
    (target.toNat : Int) ≠ (t.toInt + v.value.number.toInt) % 0x100000000 := by
  have hbuild : (build {} [farBranch, farLabel]).any fun x =>
      x.1.all isSized && x.1[0]?.isSome := by
    decide +kernel
  have hoperands : (operandsOf {} farBranch .branch).any fun x =>
      x.2.2.value.isRelocatable && x.2.2.value.number == 0x40000 && !x.2.2.isSettledAt x.1 := by
    decide +kernel
  obtain ⟨⟨ms, p⟩, hb, hx⟩ := (Option.any_eq_true _ _).mp hbuild
  obtain ⟨⟨loc, step, v⟩, hmem, hy⟩ := List.any_eq_true.mp hoperands
  simp only [Bool.and_eq_true, beq_iff_eq, Bool.not_eq_true'] at hx hy
  obtain ⟨⟨hrel, hnumber⟩, hset⟩ := hy
  obtain ⟨m, hm⟩ := Option.isSome_iff_exists.mp hx.2
  obtain ⟨hc, hv⟩ := contains_of_mem_operandsOf hmem
  have hlinked := linked_of_build hb hx.1
  obtain ⟨t, w, pc, target, texts, ht, hw, hd, -, hiff⟩ :=
    linked_branch_reaches_iff hlinked (show [farBranch, farLabel][0]? = some farBranch from rfl) hm
      hc hv hrel
  refine ⟨ms, p, m, v, loc, step, t, w, pc, target, texts, hlinked, hm, hc, hv, ht, hw, hd, ?_⟩
  rw [ne_eq, hiff, hset, hnumber]
  unfold FitsDisplacement
  decide

def farJump : Source.File := ⟨"a.s", ["j x", ".data", "x: .word 1"]⟩

theorem linked_farJump_misses : ∃ ms p m, ∃ v : OperandValue, ∃ loc step t w pc target,
    Linked {} [farJump] ms p ∧ ms[0]? = some m ∧ Contains {} farJump loc step ∧
    (.target, v) ∈ step.instruction.args.zip step.operands ∧
    resolveReference (Layout.ofModules {} ms) p.globals 0 m
      ⟨loc, v.value.target, .jump26, v.value.number⟩ = .ok (some t) ∧
    p.WordAt (Layout.ofModules {} ms) .big 0 loc w pc ∧
    Isa.Table.disassemble ⟨.standard⟩ w pc =
      step.instruction.render ["0x" ++ Text.hexWord target] ∧
    (target.toNat : Int) ≠ (t.toInt + v.value.number.toInt) % 0x100000000 := by
  -- What is run here is run by the kernel: assembling, linking and the place of the jump.
  have hbuild : (build {} [farJump]).any fun x => x.1.all isSized && x.1[0]?.any fun m =>
      (resolveReference (Layout.ofModules {} x.1) x.2.globals 0 m
        ⟨.relative ".text" 0, "x", .jump26, 0⟩).toOption == some (some 0x10010000) &&
      (Layout.ofModules {} x.1).partStart? ".text" 0 == some 0 &&
      (x.2.image.section? ".text").map (·.pc 0) == some 0x400000 := by
    decide +kernel
  have hoperands : (operandsOf {} farJump .target).any fun x => x.2.2.value.isRelocatable &&
      x.1 == .relative ".text" 0 && x.2.2.value.number == 0 && x.2.2.value.target == "x" := by
    decide +kernel
  obtain ⟨⟨ms, p⟩, hb, hx⟩ := (Option.any_eq_true _ _).mp hbuild
  obtain ⟨⟨loc, step, v⟩, hmem, hy⟩ := List.any_eq_true.mp hoperands
  simp only [Bool.and_eq_true, beq_iff_eq] at hx hy
  obtain ⟨hsized, hx⟩ := hx
  obtain ⟨m, hm, hx⟩ := (Option.any_eq_true _ _).mp hx
  simp only [Bool.and_eq_true, beq_iff_eq] at hx
  obtain ⟨⟨hresolve, hstart⟩, hpc⟩ := hx
  obtain ⟨⟨⟨hrel, rfl⟩, hnumber⟩, htarget⟩ := hy
  obtain ⟨hc, hv⟩ := contains_of_mem_operandsOf hmem
  have hlinked := linked_of_build hb hsized
  obtain ⟨t, w, pc, target, ht, hw, hd, -, hiff⟩ :=
    linked_jump_reaches_iff hlinked (show [farJump][0]? = some farJump from rfl) hm hc hv hrel
  refine ⟨ms, p, m, v, _, step, t, w, pc, target, hlinked, hm, hc, hv, ht, hw, hd, ?_⟩
  have ht' : t = 0x10010000 := by
    rw [hnumber, htarget] at ht
    rw [ht] at hresolve
    exact Option.some.inj (Option.some.inj hresolve)
  have hpc' : pc = 0x400000 := by
    obtain ⟨start, hs, -, hp⟩ := hw
    cases hs.symm.trans hstart
    exact Option.some.inj (hp.symm.trans hpc)
  rw [ne_eq, hiff, hnumber, ht', hpc']
  decide

end MipsToolchain
