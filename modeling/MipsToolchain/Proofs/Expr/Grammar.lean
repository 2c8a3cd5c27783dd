import MipsToolchain.Expr.Parse

namespace MipsToolchain

namespace Literal

/-- The number that an integer literal denotes, however large it is. -/
def denoted? (text : String) : Option Nat :=
  if isNumber text then
    Text.numeral? (baseAndDigits text.toList).1 (baseAndDigits text.toList).2
  else none

theorem integer?_eq_some_iff {text : String} {v : Int64} :
    integer? text = some v ↔
      ∃ n, denoted? text = some n ∧ n < 0x10000000000000000 ∧ v = Int64.ofNat n := by
  unfold integer? denoted?
  by_cases hn : isNumber text
  · simp only [hn, if_true]
    cases hd : Text.numeral? (baseAndDigits text.toList).1 (baseAndDigits text.toList).2 with
    | none => simp
    | some n =>
      by_cases hlt : n < 0x10000000000000000
      · simp [hlt, eq_comm]
      · simp [hlt]
  · simp [hn]

/-- The number of the first character of a character literal, and zero for an empty one. -/
def charCode (text : String) : Int64 :=
  Int64.ofNat (((unquote text).1.toList.head?.map Char.toNat).getD 0)

end Literal

theorem BinaryOperator.ofSymbol?_eq_some_iff {text : String} {op : BinaryOperator} :
    ofSymbol? text = some op ↔ text = op.symbol := by
  constructor
  · intro h
    have hs := List.find?_some h
    exact (of_decide_eq_true hs).symm
  · rintro rfl
    cases op <;> decide

theorem UnaryOperator.ofSymbol?_eq_some_iff {text : String} {op : UnaryOperator} :
    ofSymbol? text = some op ↔ text = op.symbol := by
  constructor
  · intro h
    have hs := List.find?_some h
    exact (of_decide_eq_true hs).symm
  · rintro rfl
    cases op <;> decide

namespace Expr

inductive Phrase where
  | expression
  | operand
  | atom
deriving DecidableEq, Repr

/-- The grammar of expressions: operands with binary operators between them, where an operand is an
atom with any number of unary operators in front. -/
inductive Derives : Phrase → List Token → Prop
  | integer {t : Token} {n : Nat} : t.kind = .immediate → Literal.denoted? t.text = some n →
      n < 0x10000000000000000 → Derives .atom [t]
  | char {t : Token} : t.kind = .char → Derives .atom [t]
  | symbol {t : Token} : t.kind = .identifier → Derives .atom [t]
  | group {t u : Token} {ts : List Token} : t.kind = .lparen → u.kind = .rparen →
      Derives .expression ts → Derives .atom (t :: (ts ++ [u]))
  | ofAtom {ts : List Token} : Derives .atom ts → Derives .operand ts
  | unary {t : Token} {ts : List Token} {op : UnaryOperator} : t.kind = .operator →
      t.text = op.symbol → Derives .operand ts → Derives .operand (t :: ts)
  | ofOperand {ts : List Token} : Derives .operand ts → Derives .expression ts
  | binary {t : Token} {ls rs : List Token} {op : BinaryOperator} : t.kind = .operator →
      t.text = op.symbol → Derives .expression ls → Derives .operand rs →
      Derives .expression (ls ++ t :: rs)

def bindingClasses : List (List BinaryOperator) :=
  [[.or], [.xor], [.and], [.shl, .shr], [.add, .sub], [.mul, .div, .mod]]

def level (op : BinaryOperator) : Nat := bindingClasses.findIdx (op ∈ ·)

def unaryLevel : Nat := bindingClasses.length

/-- The standard reading. `Reads p ts e` says that `ts` spells the tree `e` and that no operator
outside parentheses binds more loosely than `p`. The right operand of a binary operator holds
operators of a higher level only, so that operators of one level associate to the left. -/
inductive Reads : Nat → List Token → Expr → Prop
  | integer {p : Nat} {t : Token} {n : Nat} : t.kind = .immediate →
      Literal.denoted? t.text = some n → n < 0x10000000000000000 →
      Reads p [t] (.integer (Int64.ofNat n) t)
  | char {p : Nat} {t : Token} : t.kind = .char →
      Reads p [t] (.integer (Literal.charCode t.text) t)
  | symbol {p : Nat} {t : Token} : t.kind = .identifier → Reads p [t] (.symbol t.text t)
  | group {p : Nat} {t u : Token} {ts : List Token} {e : Expr} : t.kind = .lparen →
      u.kind = .rparen → Reads 0 ts e → Reads p (t :: (ts ++ [u])) (.group t e)
  | unary {p : Nat} {t : Token} {ts : List Token} {op : UnaryOperator} {e : Expr} :
      p ≤ unaryLevel → t.kind = .operator → t.text = op.symbol → Reads unaryLevel ts e →
      Reads p (t :: ts) (.unary op t e)
  | binary {p : Nat} {t : Token} {ls rs : List Token} {op : BinaryOperator} {l r : Expr} :
      p ≤ level op → t.kind = .operator → t.text = op.symbol → Reads (level op) ls l →
      Reads (level op + 1) rs r → Reads p (ls ++ t :: rs) (.binary op t l r)

def inorder : Expr → List Token
  | integer _ t => [t]
  | symbol _ t => [t]
  | unary _ t e => t :: e.inorder
  | binary _ t l r => l.inorder ++ t :: r.inorder
  | group _ e => e.inorder

def isParenthesis (t : Token) : Bool := t.kind == .lparen || t.kind == .rparen

theorem precedence_eq_level (op : BinaryOperator) : op.precedence = level op + 1 := by
  cases op <;> rfl

theorem level_lt_unaryLevel (op : BinaryOperator) : level op < unaryLevel := by
  cases op <;> decide

theorem Reads.mono {p q : Nat} {ts : List Token} {e : Expr} (h : Reads p ts e) (hq : q ≤ p) :
    Reads q ts e := by
  cases h with
  | integer hk hn hlt => exact .integer hk hn hlt
  | char hk => exact .char hk
  | symbol hk => exact .symbol hk
  | group ht hu hts => exact .group ht hu hts
  | unary hp hk ht hts => exact .unary (Nat.le_trans hq hp) hk ht hts
  | binary hp hk ht hl hr => exact .binary (Nat.le_trans hq hp) hk ht hl hr

theorem Reads.inorder_eq {p : Nat} {ts : List Token} {e : Expr} (h : Reads p ts e) :
    e.inorder = ts.filter (!isParenthesis ·) := by
  induction h with
  | integer hk => simp [inorder, isParenthesis, hk]
  | char hk => simp [inorder, isParenthesis, hk]
  | symbol hk => simp [inorder, isParenthesis, hk]
  | group ht hu _ ih => simp [inorder, isParenthesis, ht, hu, ih]
  | unary _ hk _ _ ih => simp [inorder, isParenthesis, hk, ih]
  | binary _ hk _ _ _ ihl ihr => simp [inorder, isParenthesis, hk, ihl, ihr]

-- A chain of operands is derived by its last operator, which need not be the root of the tree, so
-- the right operand of a binary node is appended operator by operator.
theorem Derives.append {ls rs : List Token} {t : Token} {op : BinaryOperator}
    (hk : t.kind = .operator) (ht : t.text = op.symbol) (hl : Derives .expression ls)
    (hr : Derives .expression rs) : Derives .expression (ls ++ t :: rs) := by
  generalize hp : Phrase.expression = ph at hr
  induction hr with
  | integer | char | symbol | group | ofAtom | unary => cases hp
  | ofOperand hr => exact .binary hk ht hl hr
  | @binary u ms rs op' hk' ht' _ hr ihl _ =>
    have hm := ihl rfl
    rw [show ls ++ t :: (ms ++ u :: rs) = (ls ++ t :: ms) ++ u :: rs by simp]
    exact .binary hk' ht' hm hr

theorem Derives.ofReads {p : Nat} {ts : List Token} {e : Expr} (h : Reads p ts e) :
    Derives .expression ts ∧ (unaryLevel ≤ p → Derives .operand ts) := by
  have ofOperand {q : Nat} {us : List Token} (hd : Derives .operand us) :
      Derives .expression us ∧ (unaryLevel ≤ q → Derives .operand us) :=
    ⟨.ofOperand hd, fun _ => hd⟩
  induction h with
  | integer hk hn hlt => exact ofOperand (.ofAtom (.integer hk hn hlt))
  | char hk => exact ofOperand (.ofAtom (.char hk))
  | symbol hk => exact ofOperand (.ofAtom (.symbol hk))
  | group ht hu _ ih => exact ofOperand (.ofAtom (.group ht hu ih.1))
  | unary _ hk ht _ ih => exact ofOperand (.unary hk ht (ih.2 (Nat.le_refl _)))
  | @binary p t ls rs op l r hp hk ht _ _ ihl ihr =>
    refine ⟨Derives.append hk ht ihl.1 ihr.1, fun hle => ?_⟩
    have hlt := level_lt_unaryLevel op
    omega

end Expr

end MipsToolchain
