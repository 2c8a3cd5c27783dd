import MipsToolchain.Proofs.Encoding.Printed
import MipsToolchain.Proofs.Expr.Names

namespace MipsToolchain.Expr

open Guarded Lexeme

section Outcomes

variable {e e' l l' r r' : Expr} {op : UnaryOperator} {t t' : Token}

/-- Whether two expressions come to the same in all surroundings, whatever either reports. -/
def SameOutcome (e e' : Expr) : Prop := ∀ ctx, ∃ o, (e.eval ctx).Gives o ∧ (e'.eval ctx).Gives o

theorem sameOutcome_iff : e.SameOutcome e' ↔ ∀ ctx, (e.eval ctx).Agree (e'.eval ctx) Eq := by
  refine forall_congr' fun ctx => ⟨?_, fun h => ?_⟩
  · rintro ⟨o, ho, ho'⟩ r s hr hs
    exact ((Gives.ofOk hr).unique ho).trans (ho'.unique (Gives.ofOk hs))
  · obtain ⟨r, hr⟩ := eval_total ctx e
    obtain ⟨s, hs⟩ := eval_total ctx e'
    exact ⟨r.value, Gives.ofOk hr, h r s hr hs ▸ Gives.ofOk hs⟩

theorem refuse_agree (p : Problem) (t t' : Token) (args : List MessageArg) :
    (refuse p t args).Agree (refuse p t' args) Eq :=
  .reported (.pure rfl)

theorem evalUnary_agree (op : UnaryOperator) (t t' : Token) (v : ExprValue) :
    (evalUnary op t v).Agree (evalUnary op t' v) Eq := by
  by_cases hop : op = .plus
  · subst hop
    exact .pure rfl
  · rw [evalUnary_of_ne hop, evalUnary_of_ne hop]
    split
    · exact refuse_agree _ _ _ _
    · exact .pure rfl

theorem evalBinary_agree (op : BinaryOperator) (t t' : Token) (x y : ExprValue) :
    (evalBinary op t x y).Agree (evalBinary op t' x y) Eq := by
  by_cases ha : op = .add
  · subst ha
    rw [evalBinary, evalBinary]
    split
    · exact refuse_agree _ _ _ _
    · split <;> exact .pure rfl
  by_cases hs : op = .sub
  · subst hs
    rw [evalBinary, evalBinary]
    split
    · exact refuse_agree _ _ _ _
    · split
      · exact refuse_agree _ _ _ _
      · exact .pure rfl
  rw [evalBinary_of_ne ha hs, evalBinary_of_ne ha hs]
  split
  · exact refuse_agree _ _ _ _
  · split
    · exact refuse_agree _ _ _ _
    · exact .same fun _ => .pure rfl

namespace SameOutcome

theorem unary (h : e.SameOutcome e') : (Expr.unary op t e).SameOutcome (.unary op t' e') := by
  refine sameOutcome_iff.mpr fun ctx => (sameOutcome_iff.mp h ctx).andThen ?_
  rintro o - rfl
  cases o with
  | none => exact .pure rfl
  | some v => exact evalUnary_agree op t t' v

theorem binary {op : BinaryOperator} (hl : l.SameOutcome l') (hr : r.SameOutcome r') :
    (Expr.binary op t l r).SameOutcome (.binary op t' l' r') := by
  refine sameOutcome_iff.mpr fun ctx => (sameOutcome_iff.mp hl ctx).andThen ?_
  rintro x - rfl
  refine (sameOutcome_iff.mp hr ctx).andThen ?_
  rintro y - rfl
  cases x with
  | none => exact .pure rfl
  | some x =>
    cases y with
    | none => exact .pure rfl
    | some y => exact evalBinary_agree op t t' x y

theorem group (h : e.SameOutcome e') : e.SameOutcome (.group t e') := h

theorem symbol (n : String) (t t' : Token) : (Expr.symbol n t).SameOutcome (.symbol n t') := by
  refine sameOutcome_iff.mpr fun ctx => ?_
  rw [eval, eval]
  split <;> exact .pure rfl

/-- A number that is printed with a sign is read as the negation of another one. Also the least
number is, which is its own negation. -/
theorem neg (v : Int64) (t m u : Token) :
    (integer (-v) t).SameOutcome (.unary .neg m (integer v u)) :=
  fun _ => ⟨_, .pure _, .pure _⟩

end SameOutcome

end Outcomes

section Spelling

def parenthesised (spec : List Spelling) : List Spelling :=
  (.lparen, "(") :: (spec ++ [(.rparen, ")")])

/-- The tokens of a printed expression, with a given gap beside binary operators. -/
def spelling (gap : List Spelling) : Expr → List Spelling
  | integer v _ => decimalSpelling v.toInt
  | symbol n _ => [(.identifier, n)]
  | unary op _ e => parenthesised ((.operator, op.symbol) :: e.spelling gap)
  | binary op _ l r =>
    parenthesised (l.spelling gap ++ (gap ++ (.operator, op.symbol) :: (gap ++ r.spelling gap)))
  | group _ e => e.spelling gap

theorem tokens_of_parenthesised {ts : List Token} {spec : List Spelling}
    (h : ts.map Token.spelling = parenthesised spec) :
    ∃ o us c, ts = o :: (us ++ [c]) ∧ o.kind = .lparen ∧ c.kind = .rparen ∧
      us.map Token.spelling = spec := by
  obtain ⟨o, ts, rfl, ho, h⟩ := List.map_eq_cons_iff.mp h
  obtain ⟨us, cs, rfl, hus, h⟩ := List.map_eq_append_iff.mp h
  obtain ⟨c, cs, rfl, hc, h⟩ := List.map_eq_cons_iff.mp h
  rw [List.map_eq_nil_iff.mp h]
  exact ⟨o, us, c, rfl, congrArg Prod.fst ho, congrArg Prod.fst hc, hus⟩

theorem unarySymbol_mem (op : UnaryOperator) : op.symbol ∈ operators := by
  cases op <;> decide

theorem binarySymbol_mem (op : BinaryOperator) : op.symbol ∈ operators := by
  cases op <;> decide

theorem not_blank_operator {s : String} (hs : s ∈ operators) (rest : List Char) :
    ∀ c, (s.toList ++ rest).head? = some c → isBlank c = false := by
  simp only [operators, List.mem_cons, List.not_mem_nil, or_false] at hs
  rcases hs with rfl | rfl | rfl | rfl | rfl | rfl | rfl | rfl | rfl | rfl | rfl
  all_goals
    rintro c ⟨rfl⟩
    decide

theorem not_blank_render {e : Expr} (hnames : ∀ n ∈ e.names, Literal.isIdentifier n)
    (rest : List Char) : ∀ c, (e.render.toList ++ rest).head? = some c → isBlank c = false := by
  have hstart : ∃ d w, e.render.toList = d :: w ∧ isBlank d = false := by
    induction e with
    | integer v t => exact (printable_decimal v.toInt).starts
    | symbol n t =>
      obtain ⟨d, w, hdw, hword, -⟩ := word_of_isIdentifier (hnames n (List.mem_singleton_self n))
      exact ⟨d, w, hdw, (not_isBlank (hword d List.mem_cons_self)).1⟩
    | unary op t e => exact ⟨'(', _, by simp [render]; rfl, rfl⟩
    | binary op t l r => exact ⟨'(', _, by simp [render]; rfl, rfl⟩
    | group t e ih => exact ih hnames
  obtain ⟨d, w, hdw, hd⟩ := hstart
  rw [hdw]
  rintro c ⟨rfl⟩
  exact hd

theorem spells_render {e : Expr} (hnames : ∀ n ∈ e.names, Literal.isIdentifier n)
    {rest : List Char} {spec : List Spelling} (hr : Stops rest) (h : Spells rest spec) :
    Spells (e.render.toList ++ rest) (e.spelling [(.whitespace, " ")] ++ spec) := by
  induction e generalizing rest spec with
  | integer v t => exact (printable_decimal v.toInt).reads rest spec hr h
  | symbol n t => exact .identifier (hnames n (List.mem_singleton_self n)) hr h
  | unary op t e ih =>
    have hclose := Spells.punctuation (c := ')') (k := .rparen) (by simp) h
    have hbody := Spells.operator (unarySymbol_mem op) (ih hnames (stops_cons (by decide)) hclose)
    have hopen := Spells.punctuation (c := '(') (k := .lparen) (by simp) hbody
    simpa [render, spelling, parenthesised] using hopen
  | binary op t l r ihl ihr =>
    obtain ⟨hl, hr'⟩ := List.forall_mem_append.mp hnames
    have hclose := Spells.punctuation (c := ')') (k := .rparen) (by simp) h
    have hright := ihr hr' (stops_cons (by decide)) hclose
    have hop := Spells.operator (binarySymbol_mem op) (.space (not_blank_render hr' _) hright)
    have hleft := ihl hl (stops_cons (by decide))
      (.space (not_blank_operator (binarySymbol_mem op) _) hop)
    have hopen := Spells.punctuation (c := '(') (k := .lparen) (by simp) hleft
    simpa [render, spelling, parenthesised] using hopen
  | group t e ih => exact ih hnames hr h

theorem filter_spelling (e : Expr) :
    (e.spelling [(.whitespace, " ")]).filter (fun p => p.1 != .whitespace && p.1 != .comment) =
      e.spelling [] := by
  induction e with
  | integer v t =>
    simp only [spelling, decimalSpelling]
    split <;> rfl
  | symbol n t => rfl
  | unary op t e ih => simp [spelling, parenthesised, ih]
  | binary op t l r ihl ihr => simp [spelling, parenthesised, ihl, ihr]
  | group t e ih => exact ih

end Spelling

theorem exists_reads {e : Expr} {ts : List Token} (h : ts.map Token.spelling = e.spelling []) :
    ∃ e', Reads unaryLevel ts e' ∧ e.SameOutcome e' := by
  have hinteger {t : Token} {v : Int64} {p : Nat} (ht : t.kind = .immediate)
      (hv : Literal.integer? t.text = some v) : Reads p [t] (.integer v t) := by
    obtain ⟨n, hn, hlt, rfl⟩ := Literal.integer?_eq_some_iff.mp hv
    exact .integer ht hn hlt
  induction e generalizing ts with
  | integer v t =>
    rcases decimal_cases h with ⟨u, rfl, hu, hv⟩ | ⟨m, u, w, rfl, hm, hu, hw, rfl⟩
    · exact ⟨.integer v u, hinteger hu hv, fun _ => ⟨_, .pure _, .pure _⟩⟩
    -- A negative number is read as the negation of a positive one.
    · have hkind : m.kind = .operator := congrArg Prod.fst hm
      have htext : m.text = UnaryOperator.neg.symbol := congrArg Prod.snd hm
      exact ⟨_, .unary (Nat.le_refl _) hkind htext (hinteger hu hw), .neg w t m u⟩
  | symbol n t =>
    obtain ⟨u, ts, rfl, hu, h⟩ := List.map_eq_cons_iff.mp h
    rw [List.map_eq_nil_iff.mp h]
    have hname : u.text = n := congrArg Prod.snd hu
    exact ⟨.symbol u.text u, .symbol (congrArg Prod.fst hu), hname ▸ .symbol _ t u⟩
  | unary op t e ih =>
    obtain ⟨o, us, c, rfl, ho, hc, hus⟩ := tokens_of_parenthesised h
    obtain ⟨m, ts, rfl, hm, hts⟩ := List.map_eq_cons_iff.mp hus
    obtain ⟨e', he', hsame⟩ := ih hts
    have hread := Reads.unary (Nat.zero_le _) (congrArg Prod.fst hm) (congrArg Prod.snd hm) he'
    exact ⟨_, .group ho hc hread, hsame.unary.group⟩
  | binary op t l r ihl ihr =>
    obtain ⟨o, us, c, rfl, ho, hc, hus⟩ := tokens_of_parenthesised h
    rw [List.nil_append, List.nil_append] at hus
    obtain ⟨ls, ts, rfl, hls, hts⟩ := List.map_eq_append_iff.mp hus
    obtain ⟨m, rs, rfl, hm, hrs⟩ := List.map_eq_cons_iff.mp hts
    obtain ⟨l', hl', hsamel⟩ := ihl hls
    obtain ⟨r', hr', hsamer⟩ := ihr hrs
    have hlevel := level_lt_unaryLevel op
    have hread := Reads.binary (Nat.zero_le _) (congrArg Prod.fst hm) (congrArg Prod.snd hm)
      (hl'.mono (Nat.le_of_lt hlevel)) (hr'.mono hlevel)
    exact ⟨_, .group ho hc hread, (hsamel.binary hsamer).group⟩
  | group t e ih => exact ih h

/-- A printed expression is read again as an operand, without anything to report in its line, and
what is read has the same outcome wherever it is evaluated. -/
theorem render_keeps_outcome {file text : String} {number : Int} {ts : List Token}
    (hts : ∀ t ∈ ts, t ∈ (tokenizeLine file number text).value.tokens) {place : Source.Location}
    {e : Expr} (h : (parse ts place).value = some e) (file' : String) (number' : Int)
    (place' : Source.Location) :
    ∃ line head ts' e', tokenizeLine file' number' (".word " ++ e.render) = pure line ∧
      line.significant = head :: ts' ∧ head.spelling = (.directive, ".word") ∧
      (parse ts' place').value = some e' ∧ e.SameOutcome e' := by
  have hnames : ∀ n ∈ e.names, Literal.isIdentifier n := by
    intro n hn
    obtain ⟨t, ht, hk, rfl⟩ := (reads_of_parse h).names n hn
    exact isIdentifier_of_mem (hts t ht) hk
  have hspells := spells_render hnames stops_nil .nil
  have hblank := not_blank_render hnames []
  rw [List.append_nil, List.append_nil] at hspells
  rw [List.append_nil] at hblank
  have hhead : isHead ".word" := by decide +kernel
  have htext : (".word " ++ e.render).toList = ".word".toList ++ ' ' :: e.render.toList := by simp
  obtain ⟨line, hline, hspec⟩ :=
    tokens_of_head hhead (.inr rfl) (.space hblank hspells) file' number' htext
  have hfilter := congrArg (List.filter fun p => p.1 != .whitespace && p.1 != .comment) hspec
  rw [List.filter_map, List.filter_cons_of_pos (by rfl), List.filter_cons_of_neg (by simp),
    filter_spelling] at hfilter
  obtain ⟨head, ts', hsignificant, hspelling, hspelled⟩ := List.map_eq_cons_iff.mp hfilter
  obtain ⟨e', hread, hsame⟩ := exists_reads hspelled
  exact ⟨line, head, ts', e', hline, hsignificant, hspelling,
    parse_of_reads (hread.mono (Nat.zero_le _)) place', hsame⟩

theorem render_keeps_outcome_least :
    let line := (tokenizeLine "a.s" 1 ".word -x + 0x8000000000000000 / 0xffffffffffffffff").value
    ∃ e, (parse line.significant.tail .none).value = some e ∧
      e.render = "((-x) + (-9223372036854775808 / -1))" ∧
      ∃ line head ts' e', tokenizeLine "b.s" 2 (".word " ++ e.render) = pure line ∧
        line.significant = head :: ts' ∧ head.spelling = (.directive, ".word") ∧
        (parse ts' .none).value = some e' ∧ e.SameOutcome e' := by
  intro line
  have hts : ∀ t ∈ line.significant.tail, t ∈ line.tokens := fun t ht =>
    List.mem_of_mem_filter (List.mem_of_mem_tail ht)
  have hparse : (parse line.significant.tail .none).value.map render =
      some "((-x) + (-9223372036854775808 / -1))" := by
    decide +kernel
  obtain ⟨e, he, hr⟩ := Option.map_eq_some_iff.mp hparse
  exact ⟨e, he, hr, render_keeps_outcome hts he "b.s" 2 .none⟩

end MipsToolchain.Expr
