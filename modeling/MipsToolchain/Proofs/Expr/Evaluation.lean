import MipsToolchain.Expr.Eval
import MipsToolchain.Proofs.Effects

namespace MipsToolchain

open Guarded

/-- Final values for what evaluation leaves open: where sections start, and the symbols that are not
known. -/
structure Assignment where
  sections : Name → Int64
  symbols : Name → Int64

namespace Assignment

def ofAddress (ρ : Assignment) (a : Address) : Int64 :=
  if a.isRelocatable then a.value + ρ.sections a.sectionName else a.value

def ofSymbol (ρ : Assignment) (ctx : EvalContext) (n : Name) : Int64 :=
  match ctx.resolve n with
  | some a => ρ.ofAddress a
  | none => ρ.symbols n

def ofTarget (ρ : Assignment) (v : ExprValue) : Int64 :=
  match v.reference with
  | some r => ρ.symbols r.symbol
  | none => if v.address.isRelocatable then ρ.sections v.address.sectionName else 0

def ofValue (ρ : Assignment) (v : ExprValue) : Int64 := v.number + ρ.ofTarget v

theorem ofTarget_of_constant (ρ : Assignment) {v : ExprValue} (h : v.isRelocatable = false) :
    ρ.ofTarget v = 0 := by
  rw [ExprValue.isRelocatable, Bool.or_eq_false_iff, Option.isSome_eq_false_iff,
    Option.isNone_iff_eq_none] at h
  simp [ofTarget, h.1, h.2]

theorem ofValue_of_constant (ρ : Assignment) {v : ExprValue} (h : v.isRelocatable = false) :
    ρ.ofValue v = v.number := by
  rw [ofValue, ρ.ofTarget_of_constant h, Int64.add_zero]

theorem ofValue_add (ρ : Assignment) (v : ExprValue) (d : Int64) :
    ρ.ofValue (v.add d) = ρ.ofValue v + d := by
  have hn : (v.add d).number = v.number + d := rfl
  have ht : ρ.ofTarget (v.add d) = ρ.ofTarget v := rfl
  rw [ofValue, ofValue, hn, ht, Int64.add_assoc, Int64.add_comm d, ← Int64.add_assoc]

theorem ofValue_address (ρ : Assignment) (a : Address) : ρ.ofValue ⟨a, none⟩ = ρ.ofAddress a := by
  cases h : a.isRelocatable <;> simp [ofValue, ofTarget, ofAddress, ExprValue.number, h]

end Assignment

namespace Expr

/-- The value of an expression in which every symbol has one. -/
def native (σ : Name → Int64) : Expr → Except Fault Int64
  | integer v _ => .ok v
  | symbol name _ => .ok (σ name)
  | unary op _ e => (native σ e).map op.apply
  | binary op _ l r => do
    let x ← native σ l
    let y ← native σ r
    op.apply x y
  | group _ e => native σ e

end Expr

/-- A value that is a number, a place in a section, or a distance from an unknown symbol that is
wanted at a given place. -/
structure ExprValue.Proper (loc : Address) (v : ExprValue) : Prop where
  exclusive : v.reference.isSome → v.address.isRelocatable = false
  location : ∀ r, v.reference = some r → r.location = loc

namespace ExprValue.Proper

variable {loc : Address} {v : ExprValue}

theorem constant (n : Int64) : (ExprValue.constant n).Proper loc :=
  ⟨(nomatch ·), fun _ h => by cases h⟩

theorem add (h : v.Proper loc) (d : Int64) : (v.add d).Proper loc := ⟨h.exclusive, h.location⟩

end ExprValue.Proper

namespace Expr

section Operators

variable {loc : Address} {t : Token} {x y v : ExprValue} {ds : List Diagnostic}

theorem evalUnary_of_ne {op : UnaryOperator} (hop : op ≠ .plus) :
    evalUnary op t x =
      if x.isRelocatable then refuse .relocatableOperand t [.text op.verb]
      else pure (some (.constant (op.apply x.number))) := by
  cases op with
  | plus => contradiction
  | neg | not => rfl

theorem evalBinary_of_ne {op : BinaryOperator} (ha : op ≠ .add) (hs : op ≠ .sub) :
    evalBinary op t x y =
      if x.isRelocatable || y.isRelocatable then refuse .relocatableOperand t [.text op.verb]
      else if op.isDivision && y.number == 0 then refuse .divisionByZero t []
      else (do
        let v ← op.apply x.number y.number
        pure (some (.constant v))) := by
  cases op with
  | add | sub => contradiction
  | mul | div | mod | and | or | xor | shl | shr => rfl

theorem evalUnary_sound {op : UnaryOperator} (hx : x.Proper loc)
    (h : evalUnary op t x = .ok ⟨some v, ds⟩) :
    v.Proper loc ∧ ∀ ρ : Assignment, op.apply (ρ.ofValue x) = ρ.ofValue v := by
  by_cases hop : op = .plus
  · subst hop
    cases pure_eq_ok.mp h
    exact ⟨hx, fun _ => rfl⟩
  · rw [evalUnary_of_ne hop] at h
    split at h
    · cases h
    · next hc =>
      cases pure_eq_ok.mp h
      rw [Bool.not_eq_true] at hc
      refine ⟨.constant _, fun ρ => ?_⟩
      rw [ρ.ofValue_of_constant hc, ρ.ofValue_of_constant rfl]
      rfl

theorem evalBinary_add_sound (hx : x.Proper loc) (hy : y.Proper loc)
    (h : evalBinary .add t x y = .ok ⟨some v, ds⟩) :
    v.Proper loc ∧ ∀ ρ : Assignment, ρ.ofValue x + ρ.ofValue y = ρ.ofValue v := by
  rw [evalBinary] at h
  split at h
  · cases h
  · next hboth =>
    split at h
    · next hr =>
      cases pure_eq_ok.mp h
      have hl : x.isRelocatable = false := by simpa [hr] using hboth
      refine ⟨hy.add _, fun ρ => ?_⟩
      rw [ρ.ofValue_add, ρ.ofValue_of_constant hl, Int64.add_comm]
    · next hr =>
      cases pure_eq_ok.mp h
      rw [Bool.not_eq_true] at hr
      refine ⟨hx.add _, fun ρ => ?_⟩
      rw [ρ.ofValue_add, ρ.ofValue_of_constant hr]

theorem evalBinary_sub_sound (hx : x.Proper loc)
    (h : evalBinary .sub t x y = .ok ⟨some v, ds⟩) :
    v.Proper loc ∧ ∀ ρ : Assignment, ρ.ofValue x - ρ.ofValue y = ρ.ofValue v := by
  rw [evalBinary] at h
  split at h
  · cases h
  · split at h
    · cases h
    · next hr =>
      cases pure_eq_ok.mp h
      rw [Bool.not_eq_true] at hr
      refine ⟨hx.add _, fun ρ => ?_⟩
      rw [ρ.ofValue_add, ρ.ofValue_of_constant hr, Int64.sub_eq_add_neg]

-- Sums and differences are the only operations that a relocatable operand survives. All others see
-- numbers, on which they do what they do on the final values.
theorem evalBinary_sound {op : BinaryOperator} (hx : x.Proper loc) (hy : y.Proper loc)
    (h : evalBinary op t x y = .ok ⟨some v, ds⟩) :
    v.Proper loc ∧ ∀ ρ : Assignment, op.apply (ρ.ofValue x) (ρ.ofValue y) = .ok (ρ.ofValue v) := by
  by_cases ha : op = .add
  · subst ha
    obtain ⟨hv, hsum⟩ := evalBinary_add_sound hx hy h
    exact ⟨hv, fun ρ => congrArg Except.ok (hsum ρ)⟩
  by_cases hs : op = .sub
  · subst hs
    obtain ⟨hv, hdiff⟩ := evalBinary_sub_sound hx h
    exact ⟨hv, fun ρ => congrArg Except.ok (hdiff ρ)⟩
  rw [evalBinary_of_ne ha hs] at h
  split at h
  · cases h
  · next hc =>
    rw [Bool.not_eq_true, Bool.or_eq_false_iff] at hc
    split at h
    · cases h
    · obtain ⟨a, b, ha, hb, heq⟩ := bind_eq_ok.mp h
      obtain ⟨n, hn, rfl⟩ := liftExcept_eq_ok.mp ha
      cases pure_eq_ok.mp hb
      cases heq
      refine ⟨.constant _, fun ρ => ?_⟩
      rw [ρ.ofValue_of_constant hc.1, ρ.ofValue_of_constant hc.2, ρ.ofValue_of_constant rfl, hn]
      rfl

theorem evalUnary_total (op : UnaryOperator) (t : Token) (x : ExprValue) :
    ∃ r, evalUnary op t x = .ok r := by
  by_cases hop : op = .plus
  · subst hop
    exact ⟨_, rfl⟩
  · rw [evalUnary_of_ne hop]
    split <;> exact ⟨_, rfl⟩

theorem evalBinary_total (op : BinaryOperator) (t : Token) (x y : ExprValue) :
    ∃ r, evalBinary op t x y = .ok r := by
  by_cases ha : op = .add
  · subst ha
    rw [evalBinary]
    split
    · exact ⟨_, rfl⟩
    · split <;> exact ⟨_, rfl⟩
  by_cases hs : op = .sub
  · subst hs
    rw [evalBinary]
    split
    · exact ⟨_, rfl⟩
    · split <;> exact ⟨_, rfl⟩
  rw [evalBinary_of_ne ha hs]
  split
  · exact ⟨_, rfl⟩
  · split
    · exact ⟨_, rfl⟩
    · next hz =>
      obtain ⟨n, hn⟩ := op.apply_eq_ok x.number y.number fun hd hy => by
        simp [hd, hy] at hz
      exact ⟨_, bind_eq_ok.mpr ⟨_, _, liftExcept_eq_ok.mpr ⟨n, hn, rfl⟩, rfl, rfl⟩⟩

end Operators

theorem eval_total (ctx : EvalContext) (e : Expr) : ∃ r, e.eval ctx = .ok r := by
  induction e with
  | integer v t => exact ⟨_, rfl⟩
  | symbol name t =>
    rw [eval]
    split <;> exact ⟨_, rfl⟩
  | group t e ih => exact ih
  | unary op t e ih =>
    obtain ⟨⟨x, ds⟩, he⟩ := ih
    cases x with
    | none => exact ⟨_, bind_eq_ok.mpr ⟨_, _, he, rfl, rfl⟩⟩
    | some x =>
      obtain ⟨r, hr⟩ := evalUnary_total op t x
      exact ⟨_, bind_eq_ok.mpr ⟨_, r, he, hr, rfl⟩⟩
  | binary op t l r ihl ihr =>
    obtain ⟨⟨x, ds⟩, hl⟩ := ihl
    obtain ⟨⟨y, es⟩, hr⟩ := ihr
    cases x with
    | none => exact ⟨_, bind_eq_ok.mpr ⟨_, _, hl, bind_eq_ok.mpr ⟨_, _, hr, rfl, rfl⟩, rfl⟩⟩
    | some x =>
      cases y with
      | none => exact ⟨_, bind_eq_ok.mpr ⟨_, _, hl, bind_eq_ok.mpr ⟨_, _, hr, rfl, rfl⟩, rfl⟩⟩
      | some y =>
        obtain ⟨s, hs⟩ := evalBinary_total op t x y
        exact ⟨_, bind_eq_ok.mpr ⟨_, _, hl, bind_eq_ok.mpr ⟨_, s, hr, hs, rfl⟩, rfl⟩⟩

theorem eval_sound {ctx : EvalContext} {e : Expr} {v : ExprValue} {ds : List Diagnostic}
    (h : e.eval ctx = .ok ⟨some v, ds⟩) :
    v.Proper ctx.location ∧
      ∀ ρ : Assignment, e.native (ρ.ofSymbol ctx) = .ok (ρ.ofValue v) := by
  -- An operator only has a value if its operands have one, to which the hypotheses apply.
  induction e generalizing v ds with
  | integer n t =>
    cases pure_eq_ok.mp h
    exact ⟨.constant n, fun ρ => by rw [ρ.ofValue_of_constant rfl]; rfl⟩
  | symbol name t =>
    rw [eval] at h
    cases hr : ctx.resolve name with
    | some a =>
      rw [hr] at h
      cases pure_eq_ok.mp h
      refine ⟨⟨(nomatch ·), fun _ hq => by cases hq⟩, fun ρ => ?_⟩
      rw [ρ.ofValue_address, native, Assignment.ofSymbol, hr]
    | none =>
      rw [hr] at h
      cases pure_eq_ok.mp h
      refine ⟨⟨fun _ => rfl, fun _ hq => by cases hq; rfl⟩, fun ρ => ?_⟩
      rw [native, Assignment.ofSymbol, hr]
      exact congrArg Except.ok (Int64.zero_add _).symm
  | group t e ih => exact ih h
  | unary op t e ih =>
    obtain ⟨a, b, ha, hb, heq⟩ := bind_eq_ok.mp h
    obtain ⟨x, ds'⟩ := a
    cases x with
    | none =>
      cases pure_eq_ok.mp hb
      cases heq
    | some x =>
      obtain ⟨y, es⟩ := b
      cases heq
      obtain ⟨hx, hnx⟩ := ih ha
      obtain ⟨hv, happ⟩ := evalUnary_sound hx hb
      refine ⟨hv, fun ρ => ?_⟩
      rw [native, hnx ρ, ← happ ρ]
      rfl
  | binary op t l r ihl ihr =>
    obtain ⟨a, b, ha, hb, heq⟩ := bind_eq_ok.mp h
    obtain ⟨c, d, hc, hd, rfl⟩ := bind_eq_ok.mp hb
    obtain ⟨x, ds'⟩ := a
    obtain ⟨y, es⟩ := c
    obtain ⟨z, fs⟩ := d
    cases heq
    cases x with
    | none => cases pure_eq_ok.mp hd
    | some x =>
      cases y with
      | none => cases pure_eq_ok.mp hd
      | some y =>
        obtain ⟨hx, hnx⟩ := ihl ha
        obtain ⟨hy, hny⟩ := ihr hc
        obtain ⟨hv, happ⟩ := evalBinary_sound hx hy hd
        refine ⟨hv, fun ρ => ?_⟩
        rw [native, hnx ρ, hny ρ, ← happ ρ]
        rfl

/-- Evaluation never stops, and a value that it finds is right for all addresses that sections and
unknown symbols may get. -/
theorem eval_agrees_with_final_values (ctx : EvalContext) (e : Expr) :
    ∃ r, e.eval ctx = .ok r ∧ ∀ v, r.value = some v →
      (v.reference.isSome → v.address.isRelocatable = false) ∧
      (∀ q, v.reference = some q → q.location = ctx.location) ∧
      ∀ ρ : Assignment, e.native (ρ.ofSymbol ctx) = .ok (v.number + ρ.ofTarget v) := by
  obtain ⟨⟨x, ds⟩, hr⟩ := eval_total ctx e
  refine ⟨_, hr, fun v hv => ?_⟩
  cases hv
  obtain ⟨hproper, hnative⟩ := eval_sound hr
  exact ⟨hproper.exclusive, hproper.location, hnative⟩

def displaced : Expr :=
  let t : Token := ⟨"", .operator, .none⟩
  .binary .add t (.integer 4 t)
    (.unary .plus t (.group t (.binary .sub t (.symbol "x" t) (.symbol "size" t))))

def displacedContext : EvalContext :=
  ⟨fun n => if n = "size" then some (.absolute 12) else none, .relative ".data" 8⟩

theorem eval_displaced : ∃ v, (displaced.eval displacedContext).Gives (some v) ∧
    v.reference.map (·.location) = some (.relative ".data" 8) ∧
    ∀ ρ : Assignment, displaced.native (ρ.ofSymbol displacedContext) = .ok (-8 + ρ.symbols "x") := by
  obtain ⟨r, hr, hv⟩ := eval_agrees_with_final_values displacedContext displaced
  cases hr
  obtain ⟨-, hloc, hnative⟩ := hv _ rfl
  exact ⟨_, ⟨_, rfl⟩, congrArg some (hloc _ rfl), hnative⟩

end Expr

end MipsToolchain
