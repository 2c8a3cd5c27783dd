import MipsToolchain.Proofs.Encoding.Placeholders
import MipsToolchain.Proofs.Expr.Deferral

namespace MipsToolchain

open Diagnostic Guarded

/-- A word with a number in the field that references of a kind are about. -/
def RelocationKind.store (kind : RelocationKind) (w : UInt32) (n : Int64) : UInt32 :=
  match kind with
  | .absolute32 => Isa.lowWord n
  | .jump26 => Isa.withJumpField w (Isa.lowWord (kind.field n))
  | _ => Isa.withImmediateField w (Isa.lowWord (kind.field n))

/-- A word that waits for the address of a name, with a distance from it. -/
def EncodedWord.waiting (kind : RelocationKind) (w : UInt32) (loc : Address) (n : Name)
    (k : Int64) : EncodedWord :=
  ⟨kind.store w k, some ⟨loc, n, kind, k⟩⟩

namespace Isa

theorem exists_lasting (name : String) (args : List Argument)
    (h : (Instruction.ofName? name).any fun i =>
      i.since == .mips1 && i.till == .latest && i.args == args) :
    ∃ i ∈ Instruction.all, i.args = args ∧ ∀ t : Table, t.lookup name = .found i := by
  obtain ⟨i, hi, h⟩ := (Option.any_eq_true _ _).mp h
  simp only [Bool.and_eq_true, beq_iff_eq] at h
  obtain ⟨⟨hs, ht⟩, hargs⟩ := h
  refine ⟨i, List.mem_of_find?_eq_some hi, hargs, fun t => ?_⟩
  have hav : i.availableIn t.version := by
    rw [Instruction.availableIn, hs, ht]
    cases t.version <;> rfl
  rw [Table.lookup, hi]
  exact if_pos hav

end Isa

namespace Encoder

theorem encode_register {a : Isa.Argument} (ha : a.isRegister) (v : OperandValue) (loc : Address) :
    v.encode a loc = pure (some (.ofRegister v.register, none)) := by
  cases a <;> first | rfl | cases ha

/-- Registers report nothing, so that the other operands decide. -/
theorem encodeFields_append {as bs : List Isa.Argument} (has : ∀ a ∈ as, a.isRegister)
    {vs us : List OperandValue} (hl : vs.length = as.length) {loc : Address}
    {r : Reported (List FieldValue)} (h : encodeFields loc bs us = .ok r) :
    encodeFields loc (as ++ bs) (vs ++ us) =
      .ok ⟨vs.map (fun v => some (.ofRegister v.register, none)) ++ r.value, r.diagnostics⟩ := by
  induction as generalizing vs with
  | nil =>
    rw [List.length_eq_zero_iff.mp hl]
    exact h
  | cons b as ih =>
    match vs, hl with
    | v :: vs, hl =>
      have hrest := ih (fun c hc => has c (by simp [hc])) (Nat.succ.inj hl)
      rw [List.cons_append, List.cons_append, encodeFields, encode_register (has b (by simp)) v loc]
      exact bind_eq_ok.mpr ⟨⟨_, []⟩, _, rfl, bind_eq_ok.mpr ⟨_, ⟨_, []⟩, hrest, rfl, rfl⟩, by simp⟩

theorem lastReference_settled (ops : List Isa.Operand) :
    lastReference (ops.map fun op => some (op, none)) = none := by
  rw [lastReference, filterMap_settled]
  rfl

theorem lastReference_last (regs : List Isa.Operand) (f : FieldValue) :
    lastReference (regs.map (fun op => some (op, none)) ++ [f]) = f.bind (·.2) := by
  cases f with
  | some f => exact lastReference_registers regs f.1 f.2
  | none =>
    rw [lastReference, List.filterMap_append, filterMap_settled]
    rfl

section Steps

variable {i : Isa.Instruction} {a : Isa.Argument} {vs : List OperandValue}

def registersOf (vs : List OperandValue) : List Isa.Operand :=
  vs.map fun v => .ofRegister v.register

theorem encodeStep_eq (hi : i ∈ Isa.Instruction.all) (ha : i.args.getLast? = some a)
    (hl : vs.length + 1 = i.args.length) (v : OperandValue) (loc : Address) {w : UInt32}
    (hw : i.encode (registersOf vs ++ [((v.encode a loc).value.map (·.1)).getD (.ofValue 0)]) =
      .ok w) :
    encodeStep loc ⟨i, vs ++ [v]⟩ =
      .ok ⟨(⟨w, (v.encode a loc).value.bind (·.2)⟩, (v.encode a loc).value.isSome),
        (v.encode a loc).diagnostics⟩ := by
  obtain ⟨as, has⟩ := List.getLast?_eq_some_iff.mp ha
  have hregs : ∀ b ∈ as, b.isRegister := by
    have hpattern := Isa.Instruction.register_pattern i hi
    simpa [has] using hpattern
  have hlen : vs.length = as.length := by
    rw [has, List.length_append] at hl
    simpa using hl
  have hlast : encodeFields loc [a] [v] = .ok ⟨[(v.encode a loc).value], (v.encode a loc).diagnostics⟩ :=
    bind_eq_ok.mpr ⟨v.encode a loc, ⟨_, []⟩, rfl, rfl, by simp⟩
  have hfields := encodeFields_append hregs hlen hlast
  rw [← has] at hfields
  have hmap : (vs.map fun v => (some (.ofRegister v.register, none) : FieldValue)) =
      (registersOf vs).map fun op => some (op, none) := by
    simp [registersOf]
  rw [hmap] at hfields
  refine bind_eq_ok.mpr ⟨_, ⟨_, []⟩, hfields, bind_eq_ok.mpr
    ⟨⟨w, []⟩, _, liftExcept_eq_ok.mpr ⟨w, ?_, rfl⟩, pure_eq_ok.mpr rfl, rfl⟩, ?_⟩
  · rw [List.map_append, List.map_map, ← hw]
    congr 2
    exact List.map_id _
  · simp [lastReference_last]

theorem encodeStep_registers (hregs : ∀ b ∈ i.args, b.isRegister) (hl : vs.length = i.args.length)
    (loc : Address) : ∃ w, encodeStep loc ⟨i, vs⟩ = .ok ⟨(⟨w, none⟩, true), []⟩ := by
  have hnil : encodeFields loc [] [] = .ok ⟨[], []⟩ := rfl
  have hfields := encodeFields_append hregs hl hnil
  simp only [List.append_nil] at hfields
  have hword : ∃ w, i.encode (vs.map fun v => .ofRegister v.register) = .ok w := by
    rw [Isa.Instruction.encode, if_neg (by simp [hl])]
    exact ⟨_, rfl⟩
  obtain ⟨w, hw⟩ := hword
  have hnone : lastReference (vs.map fun v => some (.ofRegister v.register, none)) = none := by
    have h := lastReference_settled (registersOf vs)
    rwa [registersOf, List.map_map] at h
  refine ⟨w, bind_eq_ok.mpr ⟨_, ⟨_, []⟩, hfields, bind_eq_ok.mpr
    ⟨⟨w, []⟩, _, liftExcept_eq_ok.mpr ⟨w, ?_, rfl⟩, pure_eq_ok.mpr rfl, rfl⟩, ?_⟩⟩
  · rw [List.map_map]
    exact hw
  · rw [hnone]
    simp

theorem encodeStep_half (hi : i ∈ Isa.Instruction.all) (ha : i.args.getLast? = some a)
    (hhalf : a = .immediate ∨ a = .unsigned ∨ a = .memory) (hl : vs.length + 1 = i.args.length)
    (x : OperandValue) (loc : Address) :
    ∃ w, ∀ v : ExprValue, v.isRelocatable →
      encodeStep loc ⟨i, vs ++ [{ x with value := v }]⟩ =
        .ok ⟨(.waiting (x.kindIn a) w loc v.target v.number, true), []⟩ := by
  let op : Isa.Operand := if a = .memory then { Isa.Operand.ofValue 0 with base := x.register }
    else .ofValue 0
  have hlen : (registersOf vs ++ [op]).length = i.args.length := by simp [registersOf, hl]
  have hisHalf : a.isHalf := by rcases hhalf with rfl | rfl | rfl <;> rfl
  obtain ⟨w, hw⟩ := Isa.Instruction.encode_half hi (List.mem_of_getLast? ha) hisHalf hlen
  refine ⟨w, fun v hv => ?_⟩
  let u : OperandValue := { x with value := v }
  have hencode : u.encode a loc = ⟨some ({ op with value := (x.kindIn a).field v.number },
      some ⟨loc, v.target, x.kindIn a, v.number⟩), []⟩ := by
    have himm := fun unsigned => OperandValue.encodeImmediate_relocatable (v := u) hv unsigned loc
    rcases hhalf with rfl | rfl | rfl
    · exact himm false
    · exact himm true
    · rw [OperandValue.encode, himm]
      rfl
  have hword : i.encode (registersOf vs ++ [(((u.encode a loc).value.map (·.1)).getD (.ofValue 0))]) =
      .ok ((x.kindIn a).store w v.number) := by
    rw [hencode]
    refine (hw _).trans ?_
    rcases hhalf with rfl | rfl | rfl <;> cases hp : x.part <;>
      simp [OperandValue.kindIn, RelocationKind.store, hp]
  have hstep := encodeStep_eq hi ha hl u loc hword
  rw [hencode] at hstep
  exact hstep

theorem refuse_eq (x : OperandValue) {p : Problem} (hp : p.severity = .error)
    (args : List MessageArg) : ∃ ds, x.refuse p args = ⟨none, ds⟩ ∧ 0 < errorCount ds := by
  refine ⟨_, rfl, Nat.pos_of_ne_zero fun he => ?_⟩
  exact x.yields_refuse hp args (fun _ => False) he

end Steps

end Encoder

/-- How the words of a statement depend on its last operand, where that is relocatable. -/
inductive WordForm where
  | shift
  | single (kind : RelocationKind) (w : UInt32)
  /-- Two words that take half of an address each. -/
  | split (upper lower : UInt32)
  | jump (w : UInt32)
  | branch (front : List UInt32) (w : UInt32)

namespace WordForm

def count : WordForm → Nat
  | split _ _ => 2
  | branch front _ => front.length + 1
  | _ => 1

/-- The words for a value at a place, if it is not refused. -/
def words (loc : Address) (v : ExprValue) : WordForm → Option (List EncodedWord)
  | shift => none
  | single kind w => some [.waiting kind w loc v.target v.number]
  | split upper lower =>
    some [.waiting .high16 upper loc v.target v.number,
      .waiting .low16 lower (loc.add 4) v.target v.number]
  | jump w =>
    if v.number % 4 = 0 then some [.waiting .jump26 w loc v.target v.number] else none
  | branch front w =>
    let place := loc.add (Int64.ofNat (4 * front.length))
    let distance := v.number - (place.value + 4)
    (if v.reference.isNone && v.address.sectionName == loc.sectionName then
      if distance % 4 = 0 ∧ Isa.fitsSigned (distance >>> 2) 16 then
        some ⟨RelocationKind.pcrel16.store w distance, none⟩
      else none
    else if v.number % 4 = 0 then some (.waiting .pcrel16 w place v.target v.number)
    else none).map fun last => front.map (⟨·, none⟩) ++ [last]

theorem length_words {form : WordForm} {loc : Address} {v : ExprValue} {ws : List EncodedWord}
    (h : form.words loc v = some ws) : ws.length = form.count := by
  cases form with
  | shift => cases h
  | single kind w =>
    cases h
    rfl
  | split upper lower =>
    cases h
    rfl
  | jump w =>
    rw [words] at h
    split at h
    · cases h
      rfl
    · cases h
  | branch front w =>
    obtain ⟨last, -, rfl⟩ := Option.map_eq_some_iff.mp h
    simp [count]

/-- Whether a result is the given words, or an error where there are none. The words then still have
their places. -/
def Describes (count : Nat) (ws : Option (List EncodedWord))
    (r : Reported (List EncodedWord × Bool)) : Prop :=
  match ws with
  | some ws => r = ⟨(ws, true), []⟩
  | none => ∃ vs : List UInt32, r.value = (vs.map (⟨·, none⟩), false) ∧ vs.length = count ∧
    0 < errorCount r.diagnostics

theorem words_branch_cons (f : UInt32) (front : List UInt32) (w : UInt32) (loc : Address)
    (v : ExprValue) :
    (branch (f :: front) w).words loc v =
      ((branch front w).words (loc.add 4) v).map (⟨f, none⟩ :: ·) := by
  have hplace : (loc.add 4).add (Int64.ofNat (4 * front.length)) =
      loc.add (Int64.ofNat (4 * (f :: front).length)) := by
    have hlen : 4 * (f :: front).length = 4 + 4 * front.length := by
      rw [List.length_cons]
      omega
    simp only [Address.add, hlen, Int64.ofNat_add, Int64.add_assoc]
    rfl
  rw [words, words, hplace, Option.map_map]
  rfl

theorem Describes.cons {count : Nat} {ws : Option (List EncodedWord)} {x : List EncodedWord × Bool}
    {ds : List Diagnostic} (h : Describes count ws ⟨x, ds⟩) (f : UInt32) :
    Describes (count + 1) (ws.map (⟨f, none⟩ :: ·)) ⟨(⟨f, none⟩ :: x.1, x.2), ds⟩ := by
  cases ws with
  | some ws =>
    cases h
    rfl
  | none =>
    obtain ⟨vs, hvs, hlen, he⟩ := h
    refine ⟨f :: vs, ?_, by simp [hlen], he⟩
    cases hvs
    rfl

/-- Whether the words of a statement with a given last argument can have a form. Without arguments
it is a word of data. -/
def Suits (a : Option Isa.Argument) : WordForm → Prop
  | shift => a = some .shamt
  | single .absolute32 _ => a = none
  | single .low16 _ => a = some .immediate ∨ a = some .unsigned ∨ a = some .memory
  | single _ _ => False
  | split _ _ => a = some .immediate
  | jump _ => a = some .target
  | branch _ _ => a = some .branch

theorem kind_of_suits {a : Option Isa.Argument} {kind : RelocationKind} {w : UInt32}
    (h : (single kind w).Suits a) : kind = .absolute32 ∨ kind = .low16 := by
  cases kind with
  | absolute32 => exact .inl rfl
  | low16 => exact .inr rfl
  | high16 | jump26 | pcrel16 | unassigned => cases h

end WordForm

namespace Encoder

open WordForm

/-- Whether the words of an instruction at a place have a form, with given operands in front of the
last one. -/
def HasForm (enc : Encoder) (m : Mnemonic) (vs : List OperandValue) (x : OperandValue)
    (loc : Address) : Prop :=
  ∃ form : WordForm, form.count = m.count ∧ form.Suits m.args.getLast? ∧
    ∀ v : ExprValue, v.isRelocatable → ∃ ss r,
      enc.expand m (vs ++ [{ x with value := v }]) = .ok ss ∧ encodeSteps loc ss = .ok r ∧
      Describes m.count (form.words loc v) r

section Forms

variable {i : Isa.Instruction} {a : Isa.Argument} {vs : List OperandValue}

theorem encodeSteps_single {loc : Address} {s : MachineStep} {r : Reported (EncodedWord × Bool)}
    (h : encodeStep loc s = .ok r) :
    encodeSteps loc [s] = .ok ⟨([r.value.1], r.value.2), r.diagnostics⟩ :=
  bind_eq_ok.mpr ⟨r, ⟨_, []⟩, h, by simp [encodeSteps]; rfl, by simp⟩

theorem describes_refused (hi : i ∈ Isa.Instruction.all) (ha : i.args.getLast? = some a)
    (hl : vs.length + 1 = i.args.length) {u : OperandValue} {loc : Address} {ds : List Diagnostic}
    (hu : u.encode a loc = ⟨none, ds⟩) (he : 0 < errorCount ds) :
    ∃ r, encodeSteps loc [⟨i, vs ++ [u]⟩] = .ok r ∧ Describes 1 none r := by
  have hword : ∃ w, i.encode (registersOf vs ++ [.ofValue 0]) = .ok w := by
    rw [Isa.Instruction.encode, if_neg (by simp [registersOf, hl])]
    exact ⟨_, rfl⟩
  obtain ⟨w, hw⟩ := hword
  have hstep := encodeStep_eq hi ha hl u loc (w := w) (by rw [hu]; exact hw)
  rw [hu] at hstep
  exact ⟨_, encodeSteps_single hstep, [w], rfl, rfl, he⟩

theorem describes_jump (hi : i ∈ Isa.Instruction.all) (ha : i.args.getLast? = some .target)
    (hl : vs.length + 1 = i.args.length) (x : OperandValue) (loc : Address) :
    ∃ w, ∀ v : ExprValue, v.isRelocatable →
      ∃ r, encodeSteps loc [⟨i, vs ++ [{ x with value := v }]⟩] = .ok r ∧
        Describes 1 ((jump w).words loc v) r := by
  have hmem := List.mem_of_getLast? ha
  have hargs := (Isa.Instruction.jump_pattern i hi hmem).1
  have hvs : vs = [] := by simpa [hargs] using hl
  obtain ⟨w, hw⟩ := Isa.Instruction.encode_jump hi hmem (.ofValue 0)
  refine ⟨w, fun v hv => ?_⟩
  let u : OperandValue := { x with value := v }
  rw [WordForm.words]
  split
  · next hmod =>
    have hencode : u.encode .target loc = ⟨u.deferred .jump26 loc (v.number >>> 2), []⟩ := by
      rw [OperandValue.encode, OperandValue.encodeTarget, if_neg (not_not.mpr hmod), if_pos hv]
      rfl
    have hstep := encodeStep_eq hi ha hl u loc (w := RelocationKind.jump26.store w v.number)
      (by rw [hencode, hvs]; exact hw _)
    rw [hencode] at hstep
    exact ⟨_, encodeSteps_single hstep, rfl⟩
  · next hmod =>
    obtain ⟨ds, hds, he⟩ := refuse_eq u (p := .branchMisaligned) rfl []
    refine describes_refused hi ha hl (u := u) ?_ he
    rw [OperandValue.encode, OperandValue.encodeTarget, if_pos hmod, hds]

theorem describes_branch (hi : i ∈ Isa.Instruction.all) (ha : i.args.getLast? = some .branch)
    (hl : vs.length + 1 = i.args.length) (x : OperandValue) (loc : Address) :
    ∃ w, ∀ v : ExprValue, v.isRelocatable →
      ∃ r, encodeSteps loc [⟨i, vs ++ [{ x with value := v }]⟩] = .ok r ∧
        Describes 1 ((branch [] w).words loc v) r := by
  have hlen : (registersOf vs ++ [Isa.Operand.ofValue 0]).length = i.args.length := by
    simp [registersOf, hl]
  obtain ⟨w, hw⟩ := Isa.Instruction.encode_half hi (List.mem_of_getLast? ha) rfl hlen
  refine ⟨w, fun v hv => ?_⟩
  let u : OperandValue := { x with value := v }
  have hplace : loc.add (Int64.ofNat (4 * ([] : List UInt32).length)) = loc := by
    simp [Address.add]
  -- What comes of the two outcomes of the field, for whichever reason it has them.
  have hrefused : ∀ {problem : Problem} {args : List MessageArg}, problem.severity = .error →
      u.encode .branch loc = u.refuse problem args →
      ∃ r, encodeSteps loc [⟨i, vs ++ [u]⟩] = .ok r ∧ Describes 1 none r := by
    intro problem args hp hu
    obtain ⟨ds, hds, he⟩ := refuse_eq u hp args
    exact describes_refused hi ha hl (hu.trans hds) he
  have hfilled : ∀ {field : Int64} {ref : Option Reference},
      u.encode .branch loc = ⟨some (.ofValue field, ref), []⟩ →
      ∃ r, encodeSteps loc [⟨i, vs ++ [u]⟩] = .ok r ∧
        Describes 1 (some [⟨Isa.withImmediateField w (Isa.lowWord field), ref⟩]) r := by
    intro field ref hu
    have hstep := encodeStep_eq hi ha hl u loc
      (w := Isa.withImmediateField w (Isa.lowWord field)) (by rw [hu]; exact hw _)
    rw [hu] at hstep
    exact ⟨_, encodeSteps_single hstep, rfl⟩
  have hencode : u.encode .branch loc = u.encodeBranch loc := rfl
  rw [OperandValue.encodeBranch, if_neg (by simp [u, hv])] at hencode
  rw [WordForm.words, hplace]
  -- The same tests in the same order: the own section, and whether the distance fits.
  split
  · next hown =>
    rw [if_pos hown] at hencode
    split
    · next hd =>
      rw [if_neg (not_not.mpr hd.1), OperandValue.encodeDisplacement, if_pos hd.2] at hencode
      exact hfilled hencode
    · next hd =>
      by_cases hmod : (v.number - (loc.value + 4)) % 4 = 0
      · rw [if_neg (not_not.mpr hmod), OperandValue.encodeDisplacement,
          if_neg fun hf => hd ⟨hmod, hf⟩] at hencode
        exact hrefused rfl hencode
      · rw [if_pos hmod] at hencode
        exact hrefused rfl hencode
  · next hown =>
    rw [if_neg hown] at hencode
    split
    · next hmod =>
      rw [if_neg (not_not.mpr hmod)] at hencode
      exact hfilled hencode
    · next hmod =>
      rw [if_pos hmod] at hencode
      exact hrefused rfl hencode

theorem hasForm_machine (enc : Encoder) (hi : i ∈ Isa.Instruction.all)
    (ha : i.args.getLast? = some a) (hfield : a.isRegister = false)
    (hl : vs.length + 1 = i.args.length) {x : OperandValue} (hx : x.part = .whole)
    (loc : Address) : HasForm enc (.machine i) vs x loc := by
  have hform : ∀ form : WordForm, form.count = 1 → form.Suits (some a) →
      (∀ v : ExprValue, v.isRelocatable →
        ∃ r, encodeSteps loc [⟨i, vs ++ [{ x with value := v }]⟩] = .ok r ∧
          Describes 1 (form.words loc v) r) → HasForm enc (.machine i) vs x loc := by
    intro form hcount hsuits h
    refine ⟨form, hcount, ?_, fun v hv => ?_⟩
    · rw [← ha] at hsuits
      exact hsuits
    · obtain ⟨r, hr, hdescribes⟩ := h v hv
      exact ⟨_, r, rfl, hr, hdescribes⟩
  have hhalf : a = .immediate ∨ a = .unsigned ∨ a = .memory →
      HasForm enc (.machine i) vs x loc := by
    intro h
    have hkind : x.kindIn a = .low16 := by
      rcases h with rfl | rfl | rfl <;> simp [OperandValue.kindIn, hx]
    obtain ⟨w, hw⟩ := encodeStep_half hi ha h hl x loc
    rw [hkind] at hw
    have hsuits : (single .low16 w).Suits (some a) :=
      h.imp (congrArg some) (Or.imp (congrArg some) (congrArg some))
    exact hform (.single .low16 w) rfl hsuits fun v hv => ⟨_, encodeSteps_single (hw v hv), rfl⟩
  -- What form the words have only depends on the last argument.
  cases a with
  | rs | rt | rd => cases hfield
  | shamt =>
    refine hform .shift rfl rfl fun v hv => ?_
    obtain ⟨ds, hds, he⟩ := refuse_eq { x with value := v } (p := .relocatableShift) rfl []
    refine describes_refused hi ha hl ?_ he
    rw [OperandValue.encode, OperandValue.encodeShift, if_pos hv, hds]
  | immediate => exact hhalf (.inl rfl)
  | unsigned => exact hhalf (.inr (.inl rfl))
  | memory => exact hhalf (.inr (.inr rfl))
  | branch =>
    obtain ⟨w, hw⟩ := describes_branch hi ha hl x loc
    exact hform (.branch [] w) rfl rfl hw
  | target =>
    obtain ⟨w, hw⟩ := describes_jump hi ha hl x loc
    exact hform (.jump w) rfl rfl hw

theorem encodeSteps_cons {loc : Address} {s : MachineStep} {ss : List MachineStep}
    {w : EncodedWord} {ds : List Diagnostic} {r : Reported (List EncodedWord × Bool)}
    (hs : encodeStep loc s = .ok ⟨(w, true), ds⟩) (hss : encodeSteps (loc.add 4) ss = .ok r) :
    encodeSteps loc (s :: ss) = .ok ⟨(w :: r.value.1, r.value.2), ds ++ r.diagnostics⟩ :=
  bind_eq_ok.mpr ⟨_, _, hs, bind_eq_ok.mpr ⟨_, ⟨_, []⟩, hss, rfl, rfl⟩, by simp⟩

def temporary : OperandValue := { register := .assemblerTemporary }

theorem hasForm_load (enc : Encoder) (name : String) (u x : OperandValue) (loc : Address) :
    HasForm enc (.pseudo (Pseudo.load name)) [u] x loc := by
  obtain ⟨i, hi, hia, hilook⟩ := Isa.exists_lasting "lui" [.rt, .unsigned] (by decide)
  obtain ⟨j, hj, hja, hjlook⟩ := Isa.exists_lasting "ori" [.rt, .rs, .unsigned] (by decide)
  have hil : [temporary].length + 1 = i.args.length := by simp [hia]
  have hjl : [u, temporary].length + 1 = j.args.length := by simp [hja]
  obtain ⟨upper, hupper⟩ := encodeStep_half (a := .unsigned) hi (by simp [hia])
    (.inr (.inl rfl)) hil { x with part := .high } loc
  obtain ⟨lower, hlower⟩ := encodeStep_half (a := .unsigned) hj (by simp [hja])
    (.inr (.inl rfl)) hjl { x with part := .low } (loc.add 4)
  refine ⟨.split upper lower, rfl, rfl, fun v hv => ⟨_, _, ?_,
    encodeSteps_cons (hupper v hv) (encodeSteps_single (hlower v hv)), rfl⟩⟩
  refine expand_pseudo_eq_ok.mpr ⟨?_, rfl⟩
  simp only [Pseudo.load, List.mapM_cons, List.mapM_nil, expandStep, hilook, hjlook]
  rfl

theorem exists_branching {b : String} (hb : b = "beq" ∨ b = "bne") :
    ∃ i ∈ Isa.Instruction.all, i.args = [.rs, .rt, .branch] ∧
      ∀ t : Isa.Table, t.lookup b = .found i := by
  rcases hb with rfl | rfl
  · exact Isa.exists_lasting "beq" _ (by decide)
  · exact Isa.exists_lasting "bne" _ (by decide)

/-- Whether an instruction of the assembler, with given operands in front of the last one, stands for
instructions on registers and then a branch that has the last operand. -/
def EndsInBranch (enc : Encoder) (q : Pseudo) (vs : List OperandValue) : Prop :=
  ∃ front j us, j ∈ enc.table.instructions ∧ j.args.getLast? = some .branch ∧
    us.length + 1 = j.args.length ∧ q.count = front.length + 1 ∧
    (∀ s ∈ front, (∀ b ∈ s.instruction.args, b.isRegister) ∧
      s.operands.length = s.instruction.args.length) ∧
    ∀ x, enc.expand (.pseudo q) (vs ++ [x]) = .ok (front ++ [⟨j, us ++ [x]⟩])

theorem endsInBranch_simple (enc : Encoder) {q : Pseudo} {b : String} {o o' : ExpansionOperand}
    (hb : b = "beq" ∨ b = "bne") (hcount : q.count = 1)
    (hq : q.expansion = [(b, [o, o', .whole vs.length])])
    {u u' : OperandValue} (hu : ∀ us, expandOperand (vs ++ us) o = .ok u)
    (hu' : ∀ us, expandOperand (vs ++ us) o' = .ok u') : EndsInBranch enc q vs := by
  obtain ⟨j, -, hja, hlook⟩ := exists_branching hb
  refine ⟨[], j, [u, u'], mem_instructions_of_lookup (hlook enc.table), by simp [hja],
    by simp [hja], hcount, by simp, fun x => expand_pseudo_eq_ok.mpr ⟨?_, hcount.symm⟩⟩
  have hlast : expandOperand (vs ++ [x]) (.whole vs.length) = .ok x := by
    simp [expandOperand, elementAt]
  simp only [hq, List.mapM_cons, List.mapM_nil, expandStep, hlook, hu, hu', hlast]
  rfl

theorem endsInBranch_compare (enc : Encoder) (name : String) {l r : Nat} (hl : l < 2) (hr : r < 2)
    {b : String} (hb : b = "beq" ∨ b = "bne") (u u' : OperandValue) :
    EndsInBranch enc (Pseudo.compare name l r b) [u, u'] := by
  have hpick : ∀ {k : Nat}, k < 2 → ∃ y, ∀ us : List OperandValue,
      expandOperand (u :: u' :: us) (.whole k) = .ok y := by
    intro k hk
    match k, hk with
    | 0, _ => exact ⟨u, fun _ => rfl⟩
    | 1, _ => exact ⟨u', fun _ => rfl⟩
  obtain ⟨left, hleft⟩ := hpick hl
  obtain ⟨right, hright⟩ := hpick hr
  obtain ⟨i, -, hia, hilook⟩ := Isa.exists_lasting "slt" [.rd, .rs, .rt] (by decide)
  obtain ⟨j, -, hja, hjlook⟩ := exists_branching hb
  refine ⟨[⟨i, [temporary, left, right]⟩], j, [temporary, { register := .zero }],
    mem_instructions_of_lookup (hjlook enc.table), by simp [hja], by simp [hja], rfl,
    by simp [hia, Isa.Argument.isRegister], fun x => expand_pseudo_eq_ok.mpr ⟨?_, rfl⟩⟩
  simp only [Pseudo.compare, List.cons_append, List.nil_append, List.mapM_cons,
    List.mapM_nil, expandStep, hilook, hjlook, hleft, hright]
  rfl

theorem describes_front {front : List MachineStep}
    (hfront : ∀ s ∈ front, (∀ b ∈ s.instruction.args, b.isRegister) ∧
      s.operands.length = s.instruction.args.length)
    (hi : i ∈ Isa.Instruction.all) (ha : i.args.getLast? = some .branch)
    (hl : vs.length + 1 = i.args.length) (x : OperandValue) (loc : Address) :
    ∃ fs w, fs.length = front.length ∧ ∀ v : ExprValue, v.isRelocatable →
      ∃ r, encodeSteps loc (front ++ [⟨i, vs ++ [{ x with value := v }]⟩]) = .ok r ∧
        Describes (front.length + 1) ((branch fs w).words loc v) r := by
  induction front generalizing loc with
  | nil =>
    obtain ⟨w, hw⟩ := describes_branch hi ha hl x loc
    exact ⟨[], w, rfl, hw⟩
  | cons s front ih =>
    obtain ⟨hregs, hlen⟩ := hfront s (by simp)
    obtain ⟨f, hf⟩ := encodeStep_registers hregs hlen loc
    obtain ⟨fs, w, hfs, hw⟩ := ih (fun s' hs' => hfront s' (by simp [hs'])) (loc.add 4)
    refine ⟨f :: fs, w, by simp [hfs], fun v hv => ?_⟩
    obtain ⟨⟨y, ds⟩, hy, hdescribes⟩ := hw v hv
    refine ⟨_, encodeSteps_cons hf hy, ?_⟩
    rw [words_branch_cons]
    exact hdescribes.cons f

theorem hasForm_branch (enc : Encoder) {q : Pseudo} (ha : q.args.getLast? = some .branch)
    (h : EndsInBranch enc q vs) (x : OperandValue) (loc : Address) :
    HasForm enc (.pseudo q) vs x loc := by
  obtain ⟨front, j, us, hj, hja, hjl, hcount, hfront, hexpand⟩ := h
  obtain ⟨fs, w, hfs, hw⟩ := describes_front hfront (Isa.Table.mem_all hj) hja hjl x loc
  refine ⟨.branch fs w, ?_, ha, fun v hv => ?_⟩
  · rw [count, hfs, ← hcount, Mnemonic.count]
  · obtain ⟨r, hr, hdescribes⟩ := hw v hv
    rw [Mnemonic.count, hcount]
    exact ⟨_, r, hexpand _, hr, hdescribes⟩

end Forms

end Encoder

namespace Pseudo

theorem register_pattern : ∀ q ∈ all, ∀ a ∈ q.args.dropLast, a.isRegister := by
  decide

theorem operand_pattern : ∀ q ∈ all, ∀ a, q.args.getLast? = some a → a.isRegister = false →
    q = load q.name ∨
    q = compare q.name 0 1 "bne" ∨ q = compare q.name 1 0 "bne" ∨
    q = compare q.name 1 0 "beq" ∨ q = compare q.name 0 1 "beq" ∨
    q = ⟨q.name, [.branch], 1, [("beq", [zero, zero, .whole 0])]⟩ ∨
    q = ⟨q.name, [.rs, .branch], 1, [("beq", [.whole 0, zero, .whole 1])]⟩ ∨
    q = ⟨q.name, [.rs, .branch], 1, [("bne", [.whole 0, zero, .whole 1])]⟩ := by
  have h : ∀ q ∈ all, ∀ a ∈ q.args.getLast?, a.isRegister = false →
      q = load q.name ∨
      q = compare q.name 0 1 "bne" ∨ q = compare q.name 1 0 "bne" ∨
      q = compare q.name 1 0 "beq" ∨ q = compare q.name 0 1 "beq" ∨
      q = ⟨q.name, [.branch], 1, [("beq", [zero, zero, .whole 0])]⟩ ∨
      q = ⟨q.name, [.rs, .branch], 1, [("beq", [.whole 0, zero, .whole 1])]⟩ ∨
      q = ⟨q.name, [.rs, .branch], 1, [("bne", [.whole 0, zero, .whole 1])]⟩ := by
    decide
  exact h

theorem load_or_branch {q : Pseudo} (hq : q ∈ all) {a : Isa.Argument}
    (ha : q.args.getLast? = some a) (hfield : a.isRegister = false) :
    q = load q.name ∨ a = .branch := by
  rcases operand_pattern q hq a ha hfield with
    heq | heq | heq | heq | heq | heq | heq | heq
  · exact .inl heq
  all_goals
    rw [heq] at ha
    exact .inr (Option.some.inj ha).symm

end Pseudo

namespace Encoder

open WordForm

theorem endsInBranch_pseudo (enc : Encoder) {q : Pseudo} (hq : q ∈ Pseudo.all)
    (ha : q.args.getLast? = some .branch) {vs : List OperandValue}
    (hl : vs.length + 1 = q.args.length) : EndsInBranch enc q vs := by
  have hcompare : ∀ {l r : Nat} {b : String}, q = Pseudo.compare q.name l r b → l < 2 → r < 2 →
      b = "beq" ∨ b = "bne" → EndsInBranch enc q vs := by
    intro l r b heq hlt hrt hb
    rw [heq] at hl ⊢
    obtain ⟨u, u', rfl⟩ : ∃ u u', vs = [u, u'] :=
      List.length_eq_two.mp (by simpa [Pseudo.compare] using hl)
    exact endsInBranch_compare enc q.name hlt hrt hb u u'
  rcases Pseudo.operand_pattern q hq _ ha rfl with heq | heq | heq | heq | heq | heq | heq | heq
  · rw [heq] at ha
    cases ha
  · exact hcompare heq (by decide) (by decide) (.inr rfl)
  · exact hcompare heq (by decide) (by decide) (.inr rfl)
  · exact hcompare heq (by decide) (by decide) (.inl rfl)
  · exact hcompare heq (by decide) (by decide) (.inl rfl)
  · rw [heq] at hl ⊢
    obtain rfl : vs = [] := by simpa using hl
    exact endsInBranch_simple enc (.inl rfl) rfl rfl (fun _ => rfl) (fun _ => rfl)
  · rw [heq] at hl ⊢
    obtain ⟨u, rfl⟩ : ∃ u, vs = [u] := List.length_eq_one_iff.mp (by simpa using hl)
    exact endsInBranch_simple enc (.inl rfl) rfl rfl (fun _ => rfl) (fun _ => rfl)
  · rw [heq] at hl ⊢
    obtain ⟨u, rfl⟩ : ∃ u, vs = [u] := List.length_eq_one_iff.mp (by simpa using hl)
    exact endsInBranch_simple enc (.inr rfl) rfl rfl (fun _ => rfl) (fun _ => rfl)

theorem hasForm_pseudo (enc : Encoder) {q : Pseudo} (hq : q ∈ Pseudo.all) {a : Isa.Argument}
    (ha : q.args.getLast? = some a) (hfield : a.isRegister = false) {vs : List OperandValue}
    (hl : vs.length + 1 = q.args.length) (x : OperandValue) (loc : Address) :
    HasForm enc (.pseudo q) vs x loc := by
  rcases Pseudo.load_or_branch hq ha hfield with heq | rfl
  · rw [heq] at hl ⊢
    obtain ⟨u, rfl⟩ : ∃ u, vs = [u] :=
      List.length_eq_one_iff.mp (by simpa [Pseudo.load] using hl)
    exact hasForm_load enc q.name u x loc
  · exact hasForm_branch enc ha (endsInBranch_pseudo enc hq ha hl) x loc

theorem hasForm_known (enc : Encoder) {m : Mnemonic} (hm : m.Known) {a : Isa.Argument}
    (ha : m.args.getLast? = some a) (hfield : a.isRegister = false) {vs : List OperandValue}
    (hl : vs.length + 1 = m.args.length) {x : OperandValue} (hx : x.part = .whole)
    (loc : Address) : HasForm enc m vs x loc := by
  cases m with
  | machine i => exact hasForm_machine enc hm ha hfield hl hx loc
  | pseudo q => exact hasForm_pseudo enc hm ha hfield hl x loc

theorem evaluateAll_last {os : List SourceOperand} (hos : ∀ q ∈ os, q.form.expr? = none)
    {o : SourceOperand} {e : Expr} (ho : o.form.expr? = some e) :
    ∃ (vs : List OperandValue) (x : OperandValue), vs.length = os.length ∧ x.part = .whole ∧
      ∀ ctx v ds, e.eval ctx = .ok ⟨some v, ds⟩ →
        evaluateAll ctx (os ++ [o]) = .ok ⟨some (vs ++ [{ x with value := v }]), ds⟩ := by
  induction os with
  | nil =>
    refine ⟨[], ⟨o.form.register?.getD .zero, .constant 0, .whole, some o⟩, rfl, rfl,
      fun ctx v ds hv => ?_⟩
    have heval : evaluate ctx o =
        .ok ⟨some ⟨o.form.register?.getD .zero, v, .whole, some o⟩, ds⟩ := by
      rw [evaluate, ho]
      exact bind_eq_ok.mpr ⟨_, ⟨_, []⟩, hv, rfl, by simp⟩
    exact bind_eq_ok.mpr ⟨_, ⟨_, []⟩, heval, rfl, by simp⟩
  | cons q os ih =>
    obtain ⟨vs, x, hlen, hx, hvs⟩ := ih fun q' hq' => hos q' (by simp [hq'])
    refine ⟨⟨q.form.register?.getD .zero, .constant 0, .whole, some q⟩ :: vs, x, by simp [hlen], hx,
      fun ctx v ds hv => ?_⟩
    have heval : evaluate ctx q =
        .ok ⟨some ⟨q.form.register?.getD .zero, .constant 0, .whole, some q⟩, []⟩ := by
      rw [evaluate, hos q (by simp)]
      rfl
    exact bind_eq_ok.mpr ⟨_, _, heval, bind_eq_ok.mpr ⟨_, ⟨_, []⟩, hvs ctx v ds hv, rfl, rfl⟩,
      by simp⟩

theorem checkConstants_last {as : List Isa.Argument} (has : ∀ b ∈ as, b.isRegister)
    {vs : List OperandValue} (hl : vs.length = as.length) (a : Isa.Argument) {x : OperandValue}
    (hx : x.value.isRelocatable) : checkConstants (as ++ [a]) (vs ++ [x]) = .ok ⟨(), []⟩ := by
  induction as generalizing vs with
  | nil =>
    rw [List.length_eq_zero_iff.mp hl, List.nil_append, List.nil_append, checkConstants,
      if_neg (by simp [hx])]
    rfl
  | cons b as ih =>
    match vs, hl with
    | v :: vs, hl =>
      have hb : b ≠ .immediate := by
        rintro rfl
        cases has .immediate (by simp)
      have hrest := ih (fun c hc => has c (by simp [hc])) (Nat.succ.inj hl)
      rw [List.cons_append, List.cons_append, checkConstants, if_neg fun h => hb h.1]
      exact hrest

end Encoder

structure ParsedInstruction.EndsIn (p : ParsedInstruction) (e : Expr) : Prop where
  known : p.mnemonic.Known
  argument : ∃ a, p.mnemonic.args.getLast? = some a ∧ a.isRegister = false
  length : p.operands.length = p.mnemonic.args.length
  operands : ∃ os o, p.operands = os ++ [o] ∧ (∀ q ∈ os, q.form.expr? = none) ∧
    o.form.expr? = some e

namespace Encoder

open WordForm

/-- The words of such an instruction depend in one of few ways on the value of the expression. -/
theorem encode_form (enc : Encoder) {p : ParsedInstruction} {e : Expr} (hp : p.EndsIn e)
    (loc : Address) :
    ∃ form : WordForm, form.count = p.mnemonic.count ∧ form.Suits p.mnemonic.args.getLast? ∧
      ∀ ctx v ds, ctx.location = loc → e.eval ctx = .ok ⟨some v, ds⟩ → v.isRelocatable →
        ∃ r, enc.encode ctx p = .ok ⟨r.value, ds ++ r.diagnostics⟩ ∧
          Describes form.count (form.words loc v) r := by
  obtain ⟨os, o, hops, hos, ho⟩ := hp.operands
  obtain ⟨a, ha, hfield⟩ := hp.argument
  obtain ⟨vs, x, hlen, hx, hvs⟩ := evaluateAll_last hos ho
  have hl : vs.length + 1 = p.mnemonic.args.length := by
    rw [hlen, ← hp.length, hops, List.length_append]
    rfl
  obtain ⟨form, hcount, hsuits, hform⟩ := hasForm_known enc hp.known ha hfield hl hx loc
  refine ⟨form, hcount, hsuits, fun ctx v ds hloc hv hrel => ?_⟩
  obtain ⟨ss, r, hss, hr, hdescribes⟩ := hform v hrel
  rw [← hcount] at hdescribes
  refine ⟨r, ?_, hdescribes⟩
  have hvalues := hvs ctx v ds hv
  rw [← hops] at hvalues
  have hsteps : (do
      let steps ← enc.expand p.mnemonic (vs ++ [{ x with value := v }])
      encodeSteps ctx.location steps : Guarded _) = .ok r :=
    bind_eq_ok.mpr ⟨⟨ss, []⟩, r, liftExcept_eq_ok.mpr ⟨ss, hss, rfl⟩, hloc ▸ hr, rfl⟩
  refine bind_eq_ok.mpr ⟨_, r, hvalues, ?_, rfl⟩
  dsimp only
  -- A pseudo-instruction checks the sizes of its constants first, of which it has none here.
  cases hm : p.mnemonic with
  | machine i =>
    rw [hm] at hsteps
    exact hsteps
  | pseudo q =>
    rw [hm] at hsteps
    have hknown := hp.known
    rw [hm] at hknown ha hl
    have hargs : q.args = q.args.dropLast ++ [a] :=
      (List.dropLast_append_getLast? a ha).symm
    have hcheck : checkConstants q.args (vs ++ [{ x with value := v }]) = .ok ⟨(), []⟩ := by
      rw [hargs]
      refine checkConstants_last (Pseudo.register_pattern q hknown) ?_ a hrel
      rw [List.length_dropLast]
      exact Nat.eq_sub_of_add_eq hl
    exact bind_eq_ok.mpr ⟨⟨(), []⟩, r, hcheck, hsteps, rfl⟩

end Encoder

end MipsToolchain
