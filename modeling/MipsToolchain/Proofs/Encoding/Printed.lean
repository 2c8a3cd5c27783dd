import MipsToolchain.Encoding.Encoder
import MipsToolchain.Proofs.Assembly.Listing
import MipsToolchain.Proofs.Token.Integers

namespace MipsToolchain

section Numbers

def decimalSpelling (n : Int) : List Spelling :=
  if n < 0 then [(.operator, "-"), (.immediate, String.ofList (Nat.toDigits 10 n.natAbs))]
  else [(.immediate, String.ofList (Nat.toDigits 10 n.natAbs))]

theorem isWordChar_digitChar {d : Nat} (hd : d < 16) : Lexeme.isWordChar d.digitChar := by
  revert d
  decide

theorem printable_digits (n : Nat) :
    Printable (Nat.toDigits 10 n) [(.immediate, String.ofList (Nat.toDigits 10 n))] := by
  have hdigits : ∀ c ∈ Nat.toDigits 10 n, ∃ d < 10, c = d.digitChar := fun c hc =>
    Text.digitChar_of_mem_toDigits (by decide) hc
  have hword : ∀ c ∈ Nat.toDigits 10 n, Lexeme.isWordChar c := by
    intro c hc
    obtain ⟨d, hd, rfl⟩ := hdigits c hc
    exact isWordChar_digitChar (by omega)
  have hfirst : ∀ d < 10, d.digitChar ≠ '$' ∧ Text.isDecimalDigit d.digitChar := by decide
  have hn := Literal.isNumber_ofList (Literal.denotes_decimal n)
  obtain ⟨c, w, hcw⟩ := List.exists_cons_of_ne_nil (Nat.toDigits_ne_nil (b := 10) (n := n))
  rw [hcw] at hdigits hword hn ⊢
  obtain ⟨d, hd, rfl⟩ := hdigits c List.mem_cons_self
  exact .immediate (hfirst d hd) hword hn

theorem printable_decimal (n : Int) : Printable (toString n).toList (decimalSpelling n) := by
  change Printable n.repr.toList _
  rw [Int.repr_eq_if, decimalSpelling]
  split
  · rw [if_neg (by omega), Nat.toList_repr]
    exact (by omega : n.toNat = n.natAbs) ▸ printable_digits n.toNat
  · rw [if_pos (by omega), String.toList_append, Nat.toList_repr]
    exact (by omega : (-n).toNat = n.natAbs) ▸ (printable_digits (-n).toNat).minus

def markedDigits (k n : Nat) : String :=
  String.ofList ('0' :: 'x' :: (List.replicate k '0' ++ Nat.toDigits 16 n))

theorem markedHex_natCast (n : Nat) : Text.markedHex n = markedDigits 0 n := by
  have hsign : ¬(n : Int) < 0 := by omega
  have hmark : "0x" = String.ofList ['0', 'x'] := rfl
  rw [Text.markedHex, if_neg hsign, Int.natAbs_natCast, Text.hex, hmark, ← String.ofList_append]
  rfl

theorem mark_hexWord (w : UInt32) :
    "0x" ++ Text.hexWord w = markedDigits (8 - (Text.hex w.toNat).length) w.toNat := by
  have hmark : "0x" = String.ofList ['0', 'x'] := rfl
  rw [Text.hexWord, Text.hexPadded, Text.zeroPadded, hmark, markedDigits]
  generalize (Text.hex w.toNat).length = k
  rw [Text.hex, ← String.ofList_append, ← String.ofList_append]
  rfl

theorem printable_markedDigits (k n : Nat) :
    Printable (markedDigits k n).toList [(.immediate, markedDigits k n)] := by
  rw [markedDigits, String.toList_ofList]
  refine .immediate (by decide) ?_ ?_
  · refine List.forall_mem_cons.mpr ⟨by decide, List.forall_mem_cons.mpr ⟨by decide, ?_⟩⟩
    intro c hc
    obtain ⟨d, hd, rfl⟩ := Literal.hexDigits_padded k n c hc
    exact isWordChar_digitChar hd
  · exact Literal.isNumber_ofList (Literal.denotes_hex k n)

/-- Tokens of a number, perhaps behind a sign, as an expression with the number as its value. -/
structure Numeral (ts : List Token) (v : Int64) : Prop where
  short : (∃ t, ts = [t] ∧ t.kind = .immediate) ∨ ∃ m t, ts = [m, t]
  value : ∀ place ctx, ∃ e, Expr.parse ts place = pure (some e) ∧
    e.eval ctx = pure (some (.constant v))

variable {t : Token} {v : Int64}

theorem Expr.item?_immediate (ht : t.kind = .immediate) (hv : Literal.integer? t.text = some v)
    (expecting : Bool) : Expr.item? t expecting = some (.integer v) := by
  rw [Expr.item?, ht]
  simp [hv]

theorem numeral_immediate (ht : t.kind = .immediate) (hv : Literal.integer? t.text = some v) :
    Numeral [t] v where
  short := .inl ⟨t, rfl, ht⟩
  value place ctx := by
    refine ⟨.integer v t, ?_, rfl⟩
    simp only [Expr.parse, Expr.addTokens, Expr.addToken, Expr.item?_immediate ht hv]
    rfl

theorem numeral_minus {m : Token} (hm : m.spelling = (.operator, "-")) (ht : t.kind = .immediate)
    (hv : Literal.integer? t.text = some v) : Numeral [m, t] (-v) where
  short := .inr ⟨m, t, rfl⟩
  value place ctx := by
    have hkind : m.kind = .operator := congrArg Prod.fst hm
    have htext : m.text = "-" := congrArg Prod.snd hm
    have hminus : Expr.item? m ExprBuilder.empty.expecting = some (.operator (.unary .neg)) := by
      rw [Expr.item?, hkind, htext]
      rfl
    refine ⟨.unary .neg m (.integer v t), ?_, rfl⟩
    simp only [Expr.parse, Expr.addTokens, Expr.addToken, hminus, Expr.item?_immediate ht hv]
    rfl

/-- The tokens of a number that is written in decimal: a literal, or a literal for its negation
behind a sign. -/
theorem decimal_cases {ts : List Token} (h : ts.map Token.spelling = decimalSpelling v.toInt) :
    (∃ t, ts = [t] ∧ t.kind = .immediate ∧ Literal.integer? t.text = some v) ∨
    ∃ m t w, ts = [m, t] ∧ m.spelling = (.operator, "-") ∧ t.kind = .immediate ∧
      Literal.integer? t.text = some w ∧ -w = v := by
  have hlo := v.le_toInt
  have hhi := v.toInt_lt
  have hinteger {t : Token}
      (ht : t.spelling = (.immediate, String.ofList (Nat.toDigits 10 v.toInt.natAbs))) :
      t.kind = .immediate ∧
        Literal.integer? t.text = some (Int64.ofNat v.toInt.natAbs) := by
    refine ⟨congrArg Prod.fst ht, ?_⟩
    rw [show t.text = _ from congrArg Prod.snd ht]
    exact Literal.integer?_ofList (Literal.denotes_decimal _) (by omega)
  rw [decimalSpelling] at h
  split at h
  · obtain ⟨m, ts, rfl, hm, h⟩ := List.map_eq_cons_iff.mp h
    obtain ⟨t, ts, rfl, ht, h⟩ := List.map_eq_cons_iff.mp h
    rw [List.map_eq_nil_iff.mp h]
    refine .inr ⟨m, t, _, rfl, hm, (hinteger ht).1, (hinteger ht).2, ?_⟩
    rw [← Int64.ofInt_eq_ofNat, ← Int64.ofInt_neg, (by omega : -(v.toInt.natAbs : Int) = v.toInt),
      Int64.ofInt_toInt]
  · obtain ⟨t, ts, rfl, ht, h⟩ := List.map_eq_cons_iff.mp h
    rw [List.map_eq_nil_iff.mp h]
    have hv : Int64.ofNat v.toInt.natAbs = v := by
      rw [← Int64.ofInt_eq_ofNat, (by omega : (v.toInt.natAbs : Int) = v.toInt), Int64.ofInt_toInt]
    exact .inl ⟨t, rfl, (hinteger ht).1, hv ▸ (hinteger ht).2⟩

theorem numeral_decimal {ts : List Token} (h : ts.map Token.spelling = decimalSpelling v.toInt) :
    Numeral ts v := by
  rcases decimal_cases h with ⟨t, rfl, ht, hv⟩ | ⟨m, t, w, rfl, hm, ht, hw, rfl⟩
  · exact numeral_immediate ht hv
  · exact numeral_minus hm ht hw

theorem numeral_markedDigits {k n : Nat} (hn : n < 0x10000000000000000) {ts : List Token}
    (h : ts.map Token.spelling = [(.immediate, markedDigits k n)]) :
    Numeral ts (Int64.ofNat n) := by
  obtain ⟨t, ts, rfl, ht, h⟩ := List.map_eq_cons_iff.mp h
  rw [List.map_eq_nil_iff.mp h]
  refine numeral_immediate (congrArg Prod.fst ht) ?_
  have htext : t.text = markedDigits k n := congrArg Prod.snd ht
  rw [htext]
  exact Literal.integer?_ofList (Literal.denotes_hex k _) hn

end Numbers

section Operands

/-- An operand with a register and a number, in that order, as it is written. -/
def OperandValue.known (r : Isa.Register) (v : Int64) (o : SourceOperand) : OperandValue :=
  { register := r, value := .constant v, origin := some o }

/-- Tokens that are read as an operand for an argument, with a given register and number, and
nothing to report. -/
def Reads (ts : List Token) (a : Isa.Argument) (r : Isa.Register) (v : Int64) : Prop :=
  ∀ place ctx, ∃ o, SourceOperand.parse ts place = pure (some o) ∧ o.form.suits a ∧
    Encoder.evaluate ctx o = pure (some (.known r v o))

variable {ts : List Token} {a : Isa.Argument} {r : Isa.Register} {v : Int64}

theorem reads_register {t : Token} (ht : t.kind = .register)
    (hr : Isa.Register.parse? t.text = some r) (ha : a.isRegister) : Reads [t] a r 0 := by
  intro place ctx
  refine ⟨⟨.register r, t.location, t.text⟩, ?_, ha, rfl⟩
  simp only [SourceOperand.parse, SourceOperand.parseForm, ht, SourceOperand.parseRegister, hr]
  rfl

theorem Numeral.ne_nil (h : Numeral ts v) : ts ≠ [] := by
  rcases h.short with ⟨t, rfl, -⟩ | ⟨m, t, rfl⟩ <;> nofun

theorem Numeral.reads (h : Numeral ts v) (ha : !a.isRegister && a != .memory) :
    Reads ts a .zero v := by
  intro place ctx
  obtain ⟨e, he, hv⟩ := h.value place ctx
  have hform : SourceOperand.parseForm ts place = pure (some (.expression e)) := by
    rcases h.short with ⟨t, rfl, ht⟩ | ⟨m, t, rfl⟩
    · rw [SourceOperand.parseForm, if_neg (by simp [ht]), he]
      rfl
    · rw [SourceOperand.parseForm, SourceOperand.splitMemory?, he]
      · rfl
      · nofun
  obtain ⟨t, ts, rfl⟩ := List.exists_cons_of_ne_nil h.ne_nil
  refine ⟨⟨.expression e, t.location, t.text⟩, ?_, ha, ?_⟩
  · rw [SourceOperand.parse, hform]
    rfl
  · simp only [Encoder.evaluate, OperandForm.expr?, hv]
    rfl

theorem Numeral.reads_memory (h : Numeral ts v) {opening t close : Token}
    (ho : opening.kind = .lparen) (ht : t.kind = .register) (hc : close.kind = .rparen)
    (hr : Isa.Register.parse? t.text = some r) :
    Reads (ts ++ [opening, t, close]) .memory r v := by
  intro place ctx
  obtain ⟨e, he, hv⟩ := h.value place ctx
  obtain ⟨s, ts, rfl⟩ := List.exists_cons_of_ne_nil h.ne_nil
  have hsplit : SourceOperand.splitMemory? (s :: ts ++ [opening, t, close]) = some (s :: ts, t) := by
    have hreverse : (s :: ts ++ [opening, t, close]).reverse =
        close :: t :: opening :: (s :: ts).reverse := by simp
    rw [SourceOperand.splitMemory?, hreverse]
    simp only [ho, ht, hc, and_self, if_true, List.reverse_reverse]
  have hform : SourceOperand.parseForm (s :: ts ++ [opening, t, close]) place =
      pure (some (.memory r (some e))) := by
    rw [SourceOperand.parseForm, hsplit]
    · simp only [SourceOperand.parseRegister, hr, he]
      rfl
    · simp
  refine ⟨⟨.memory r (some e), s.location, s.text⟩, ?_, rfl, ?_⟩
  · rw [List.cons_append, SourceOperand.parse, ← List.cons_append, hform]
    rfl
  · simp only [Encoder.evaluate, OperandForm.expr?, hv]
    rfl

end Operands

end MipsToolchain
