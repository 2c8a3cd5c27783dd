import MipsToolchain.Proofs.Object.History
import MipsToolchain.Proofs.Object.Results

namespace MipsToolchain.Module

section Alignments

variable {m : Module} {n : Name} {boundary : Nat}

def raised (m : Module) (n : Name) (boundary : Nat) : Module :=
  m.updateSection n fun s => { s with alignment := max s.alignment boundary }

def withoutAlignments (m : Module) : Module :=
  { m with sections := m.sections.map ({ · with alignment := 0 }) }

theorem raised_eq_self_iff :
    m.raised n boundary = m ↔ ∀ s ∈ m.sections, s.name = n → boundary ≤ s.alignment := by
  have hraise : ∀ s : Section,
      (if s.name = n then { s with alignment := max s.alignment boundary } else s) = id s ↔
        (s.name = n → boundary ≤ s.alignment) := by
    rintro ⟨name, flags, address, alignment, bytes⟩
    by_cases h : name = n <;> simp [h]
  have hsections : m.raised n boundary = m ↔ (m.raised n boundary).sections = m.sections.map id := by
    rw [List.map_id]
    exact ⟨congrArg Module.sections, congrArg fun ss => { m with sections := ss }⟩
  rw [hsections, raised, updateSection, List.map_inj_left]
  simp only [hraise]

theorem withoutAlignments_raised :
    (m.raised n boundary).withoutAlignments = m.withoutAlignments := by
  simp only [withoutAlignments, raised, updateSection, List.map_map]
  congr 1
  refine List.map_congr_left fun s _ => ?_
  rw [Function.comp_apply]
  split <;> rfl

end Alignments

section Endings

variable {α β : Type} {m m' : Module}

/-- The fault that a step ends with, if it does not return. -/
def ending (m : Module) (e : Edit α) : Option Fault :=
  match (e.run.run m).1 with
  | .ok _ => none
  | .error f => some f

theorem ending_bind (x : Edit α) (f : α → Edit β) :
    m.ending (x >>= f) = match m.perform x with
      | .ok (a, m') => m'.ending (f a)
      | .error e => some e := by
  unfold ending perform
  rw [ExceptT.run_bind, StateT.run_bind]
  rcases x.run.run m with ⟨a | e, m'⟩ <;> rfl

/-- What a step leaves of a module, which it at most finds finalized. -/
structure Leaves (m : Module) (e : Edit α) (m' : Module) : Prop where
  ending : ∀ f, m.ending e = some f → f = .finalizedModule m.name
  after : m.after e = m'

namespace Leaves

theorem pure (a : α) : Leaves m (Pure.pure a : Edit α) m where
  ending _ h := by cases h
  after := rfl

theorem bind {x : Edit α} {f : α → Edit β} {a : α} {m₁ : Module}
    (hx : m.perform x = .ok (a, m₁)) (hname : m₁.name = m.name) (hf : Leaves m₁ (f a) m') :
    Leaves m (x >>= f) m' where
  ending g hg := by
    rw [ending_bind, hx] at hg
    exact hname ▸ hf.ending g hg
  after := by
    rw [after_bind, hx]
    exact hf.after

theorem get {f : Module → Edit β} (h : Leaves m (f m) m') : Leaves m (MonadState.get >>= f) m' :=
  bind (perform_get m) rfl h

theorem refused {x : Edit α} {f : α → Edit β} (h : Leaves m x m')
    (hx : m.perform x = .error (.finalizedModule m.name)) : Leaves m (x >>= f) m' where
  ending g hg := by
    rw [ending_bind, hx] at hg
    exact (Option.some.inj hg).symm
  after := by
    rw [after_bind, hx]
    exact h.after

variable (hm : m.finalized)

include hm

theorem checkMutable : Leaves m Module.checkMutable m := by
  refine get ?_
  rw [if_pos hm]
  exact ⟨fun f hf => (Option.some.inj hf).symm, rfl⟩

theorem mutable (f : Unit → Edit β) : Leaves m (Module.checkMutable >>= f) m :=
  refused (checkMutable hm) (by rw [perform_checkMutable, if_pos hm])

theorem addSection (n : Name) (flags : SectionFlags) :
    Leaves m (Module.addSection n flags) m := by
  refine get ?_
  split
  · exact pure _
  · exact mutable hm _

theorem append (n : Name) (bytes : ByteArray) : Leaves m (Module.append n bytes) m :=
  mutable hm _

theorem appendWord (n : Name) (w : UInt32) : Leaves m (Module.appendWord n w) m :=
  get (append hm n _)

theorem reserve (n : Name) {count : Int} (hzero : ¬ count < 0) (hspace : ¬ addressSpace < count) :
    Leaves m (Module.reserve n count) m := by
  rw [Module.reserve, if_neg hzero, if_neg hspace]
  exact append hm n _

/-- A section is marked before it is filled, and only then the module is found finalized. -/
theorem align (n : Name) {boundary : Nat} (hb : boundary ≤ maxAlignment) :
    Leaves m (Module.align n boundary) (m.raised n boundary) := by
  rw [Module.align, if_neg (Nat.not_lt.mpr hb)]
  cases hs : m.section? n with
  | none =>
    have hrefused : m.perform (Module.addSection n (standardFlags n)) =
        .error (.finalizedModule m.name) := by
      rw [Module.addSection, perform_bind, perform_get, Except.bind]
      dsimp only
      rw [hs]
      exact perform_mutable_of_finalized hm _
    rw [raised, updateSection_of_none hs]
    exact refused (addSection hm n _) hrefused
  | some s =>
    refine bind (perform_addSection_of_some hs _) rfl ?_
    have hmodify : m.perform (modify fun m => m.updateSection n fun s =>
        { s with alignment := max s.alignment boundary }) = .ok ((), m.raised n boundary) :=
      perform_modify _ _
    refine bind hmodify rfl ?_
    dsimp only
    split
    · have hraised : (m.raised n boundary).finalized := hm
      have hsize := filling_le_addressSpace hb s.length
      have hreserve := reserve hraised n (Int.not_lt.mpr (Int.natCast_nonneg _)) (Int.not_lt.mpr hsize)
      refine refused hreserve ?_
      rw [perform_reserve hsize]
      exact perform_mutable_of_finalized hraised _
    · exact pure _

theorem tryDefine (n : Name) (type : SymbolType) (address : Option Address)
    (origin : Source.Location) : Leaves m (Module.tryDefine n type address origin) m := by
  refine get ?_
  split
  · exact pure _
  · exact mutable hm _

theorem define (n : Name) (type : SymbolType) (address : Address) (origin : Source.Location) :
    Leaves m (Module.define n type address origin) m := by
  refine get ?_
  split
  · exact tryDefine hm n type _ origin
  · split
    · exact pure _
    · exact mutable hm _

theorem declare (n : Name) (binding : Binding) : Leaves m (Module.declare n binding) m :=
  mutable hm _

theorem track (r : Reference) : Leaves m (Module.track r) m :=
  mutable hm _

end Leaves

end Endings

namespace Operation

def patchEnding {ε : Type} (x : ExceptT ε (Except Fault) Module) : Option Fault :=
  match x.run with
  | .ok _ => none
  | .error f => some f

/-- The fault that a call ends with, if it returns no result. -/
def fault? (op : Operation) (m : Module) : Option Fault :=
  match op with
  | addSection n flags => m.ending (Module.addSection n flags)
  | append n bytes => m.ending (Module.append n bytes)
  | appendWord n w => m.ending (Module.appendWord n w)
  | reserve n count => m.ending (Module.reserve n count)
  | align n boundary => m.ending (Module.align n boundary)
  | tryDefine n type address origin => m.ending (Module.tryDefine n type address origin)
  | define n type address origin => m.ending (Module.define n type address origin)
  | declare n binding => m.ending (Module.declare n binding)
  | track r => m.ending (Module.track r)
  | writeWord loc w => patchEnding (m.writeWord loc w)
  | relocate r delta => patchEnding (m.relocate r delta)
  | finalize | markFailed => none

/-- Whether a call is one that may change a module after it is complete. -/
def isLate : Operation → Bool
  | writeWord _ _ | relocate _ _ | markFailed => true
  | _ => false

/-- The fault of a call that no module can answer. -/
def misuse? : Operation → Option Fault
  | reserve _ count =>
    if count < 0 then some .negativeLength
    else if addressSpace < count then some .outOfRange
    else none
  | align _ boundary => if maxAlignment < boundary then some (.invalidAlignment boundary) else none
  | _ => none

def Raises (op : Operation) (m : Module) : Prop :=
  match op with
  | align n boundary =>
    boundary ≤ maxAlignment ∧ ∃ s ∈ m.sections, s.name = n ∧ s.alignment < boundary
  | _ => False

variable {m : Module}

/-- A call on a finalized module as it is at the end of it. -/
structure Ends (op : Operation) (m : Module) : Prop where
  fault : ∀ f, op.fault? m = some f → f = .finalizedModule m.name ∨ op.misuse? = some f
  unchanged : op.apply m = m ↔ ¬ op.Raises m
  remains : (op.apply m).withoutAlignments = m.withoutAlignments

theorem Ends.of_unchanged {op : Operation} (ha : op.apply m = m) (hr : ¬ op.Raises m)
    (hf : ∀ f, op.fault? m = some f → f = .finalizedModule m.name ∨ op.misuse? = some f) :
    op.Ends m where
  fault := hf
  unchanged := by simp [ha, hr]
  remains := by rw [ha]

theorem Ends.of_leaves {op : Operation} {α : Type} {e : Edit α} (h : Leaves m e m)
    (ha : op.apply m = m.after e) (hf : op.fault? m = m.ending e) (hr : ¬ op.Raises m) :
    op.Ends m :=
  .of_unchanged (ha.trans h.after) hr fun f hfault => .inl (h.ending f (hf ▸ hfault))

theorem ends_reserve (hm : m.finalized) (n : Name) (count : Int) : (reserve n count).Ends m := by
  by_cases hzero : count < 0
  · have hstep : Module.reserve n count = throw .negativeLength := by
      rw [Module.reserve, if_pos hzero]
      rfl
    refine .of_unchanged ?_ id fun f hf => .inr ?_
    · rw [apply, hstep]
      rfl
    · rw [fault?, hstep] at hf
      rw [misuse?, if_pos hzero]
      exact hf
  · by_cases hspace : addressSpace < count
    · have hstep : Module.reserve n count = throw .outOfRange := by
        rw [Module.reserve, if_neg hzero, if_pos hspace]
        rfl
      refine .of_unchanged ?_ id fun f hf => .inr ?_
      · rw [apply, hstep]
        rfl
      · rw [fault?, hstep] at hf
        rw [misuse?, if_neg hzero, if_pos hspace]
        exact hf
    · exact .of_leaves (.reserve hm n hzero hspace) rfl rfl id

theorem ends_align (hm : m.finalized) (n : Name) (boundary : Nat) : (align n boundary).Ends m := by
  by_cases hb : boundary ≤ maxAlignment
  · obtain ⟨hending, hafter⟩ := Leaves.align hm n hb
    refine ⟨fun f hf => .inl (hending f hf), ?_, ?_⟩
    · rw [apply, hafter, raised_eq_self_iff]
      simp [Raises, hb]
    · rw [apply, hafter, withoutAlignments_raised]
  · have hstep : Module.align n boundary = throw (.invalidAlignment boundary) := by
      rw [Module.align, if_pos (Nat.not_le.mp hb)]
      rfl
    refine .of_unchanged ?_ (fun h => hb h.1) fun f hf => .inr ?_
    · rw [apply, hstep]
      rfl
    · rw [fault?, hstep] at hf
      rw [misuse?, if_pos (Nat.not_le.mp hb)]
      exact hf

theorem ends_of_finalized (hm : m.finalized) {op : Operation} (hop : op.isLate = false) :
    op.Ends m := by
  cases op with
  | addSection n flags => exact .of_leaves (.addSection hm n flags) rfl rfl id
  | append n bytes => exact .of_leaves (.append hm n bytes) rfl rfl id
  | appendWord n w => exact .of_leaves (.appendWord hm n w) rfl rfl id
  | reserve n count => exact ends_reserve hm n count
  | align n boundary => exact ends_align hm n boundary
  | tryDefine n type address origin =>
    exact .of_leaves (.tryDefine hm n type address origin) rfl rfl id
  | define n type address origin => exact .of_leaves (.define hm n type address origin) rfl rfl id
  | declare n binding => exact .of_leaves (.declare hm n binding) rfl rfl id
  | track r => exact .of_leaves (.track hm r) rfl rfl id
  | finalize =>
    refine .of_unchanged ?_ id fun f hf => by cases hf
    obtain ⟨name, order, sections, symbols, references, finalized, failed⟩ := m
    simp only at hm
    subst hm
    rfl
  | writeWord | relocate | markFailed => cases hop

theorem finalized_apply (hm : m.finalized) {op : Operation} (hop : op.isLate = false) :
    (op.apply m).finalized :=
  (congrArg Module.finalized (ends_of_finalized hm hop).remains).trans hm

theorem withoutAlignments_run (hm : m.finalized) {ops : List Operation}
    (hops : ∀ op ∈ ops, op.isLate = false) :
    (run ops m).withoutAlignments = m.withoutAlignments := by
  induction ops generalizing m with
  | nil => rfl
  | cons op ops ih =>
    obtain ⟨hop, hops⟩ := List.forall_mem_cons.mp hops
    exact (ih (finalized_apply hm hop) hops).trans (ends_of_finalized hm hop).remains

/-- Calls on a finalized module fault or return, and leave everything in it but alignments. An
alignment changes by a call to align which asks for more, even if that call faults. -/
theorem finalized_readOnly (hm : m.finalized) :
    (∀ op : Operation, op.isLate = false →
      (∀ f, op.fault? m = some f → f = .finalizedModule m.name ∨ op.misuse? = some f) ∧
        (op.apply m = m ↔ ¬ op.Raises m)) ∧
    ∀ ops : List Operation, (∀ op ∈ ops, op.isLate = false) →
      (run ops m).withoutAlignments = m.withoutAlignments := by
  refine ⟨fun op hop => ?_, fun ops hops => withoutAlignments_run hm hops⟩
  have hends := ends_of_finalized hm hop
  exact ⟨hends.fault, hends.unchanged⟩

def wordModule : Module where
  name := "m"
  order := .big
  sections := [⟨".text", StandardSection.text.flags, 0, 0, zeroBytes 4⟩]
  finalized := true

/-- To align a word to eight bytes takes more of them, which a finalized module does not get. Yet it
has the alignment then. -/
theorem finalized_readOnly_wordModule : wordModule.finalized ∧
    (align ".text" 3).isLate = false ∧
    (align ".text" 3).fault? wordModule = some (.finalizedModule "m") ∧
    (align ".text" 3).apply wordModule ≠ wordModule ∧
    (align ".text" 3).apply wordModule = wordModule.raised ".text" 3 ∧
    (run [align ".text" 3, append ".text" (zeroBytes 4)] wordModule).withoutAlignments =
      wordModule.withoutAlignments := by
  obtain ⟨hcalls, hruns⟩ := finalized_readOnly (m := wordModule) rfl
  obtain ⟨-, hunchanged⟩ := hcalls (align ".text" 3) rfl
  refine ⟨rfl, rfl, by decide, fun h => hunchanged.mp h ⟨by decide, _, .head _, rfl, by decide⟩,
    by decide, hruns _ (by simp [isLate])⟩

end Operation

end MipsToolchain.Module
