import MipsToolchain.Proofs.Token.Integers
import MipsToolchain.Token.Tokenize

namespace MipsToolchain

def Token.spelling (t : Token) : TokenKind × String := (t.kind, t.text)

namespace Lexeme

def Stops (rest : List Char) : Prop := ∀ c, rest.head? = some c → isWordChar c = false

theorem stops_nil : Stops [] := nofun

theorem stops_cons {c : Char} {rest : List Char} (h : isWordChar c = false) : Stops (c :: rest) := by
  intro d hd
  cases hd
  exact h

section Scanning

variable {column : Nat} {rest : List Char}

theorem takeWhile_append_stop {p : Char → Bool} {w : List Char} (hw : ∀ c ∈ w, p c)
    (hr : ∀ c, rest.head? = some c → p c = false) : (w ++ rest).takeWhile p = w := by
  rw [List.takeWhile_append_of_pos hw]
  cases rest with
  | nil => simp
  | cons c r => rw [List.takeWhile_cons_of_neg (by simp [hr c rfl]), List.append_nil]

theorem not_isBlank {c : Char} (h : isWordChar c) : isBlank c = false ∧ c ≠ '\n' := by
  constructor
  · refine Bool.eq_false_iff.mpr fun hb => ?_
    unfold isBlank at hb
    rw [Bool.or_eq_true, beq_iff_eq, beq_iff_eq] at hb
    rcases hb with rfl | rfl <;> revert h <;> decide
  · rintro rfl
    revert h
    decide

theorem scanFrom_piece {shape : LexemeShape} {c : Char} {w : List Char} (hc : c ≠ '\n')
    (h : extent c (w ++ rest) = (shape, w.length, true)) : scanFrom column (c :: (w ++ rest)) =
      ⟨shape, c :: w, column, true⟩ :: scanFrom (column + 1 + w.length) rest := by
  rw [scanFrom, if_neg hc, h]
  simp

theorem scanFrom_word {c : Char} {w : List Char} (hc : isWordChar c) (hw : ∀ d ∈ w, isWordChar d)
    (hr : Stops rest) : scanFrom column (c :: (w ++ rest)) =
      ⟨.word, c :: w, column, true⟩ :: scanFrom (column + 1 + w.length) rest := by
  obtain ⟨hblank, hline⟩ := not_isBlank hc
  refine scanFrom_piece hline ?_
  rw [extent, if_neg (by simp [hblank]), if_pos hc, takeWhile_append_stop hw hr]

theorem scanFrom_space (hr : ∀ c, rest.head? = some c → isBlank c = false) :
    scanFrom column (' ' :: rest) =
      ⟨.whitespace, [' '], column, true⟩ :: scanFrom (column + 1) rest := by
  have hspaces : rest.takeWhile isBlank = [] :=
    takeWhile_append_stop (w := []) nofun hr
  refine scanFrom_piece (w := []) (by decide) ?_
  rw [extent, if_pos (by decide), List.nil_append, hspaces]

theorem scanFrom_punctuation {c : Char} (hc : c ∈ [',', '(', ')', '-']) :
    scanFrom column (c :: rest) = ⟨.punctuation, [c], column, true⟩ :: scanFrom (column + 1) rest := by
  have hextent : extent c rest = (.punctuation, 0, true) := by
    simp only [List.mem_cons, List.not_mem_nil, or_false] at hc
    rcases hc with rfl | rfl | rfl | rfl <;> rfl
  have hline : c ≠ '\n' := by
    rintro rfl
    revert hc
    decide
  exact scanFrom_piece (w := []) hline hextent

theorem scanFrom_operator {s : String} (hs : s ∈ operators) :
    scanFrom column (s.toList ++ rest) =
      ⟨.punctuation, s.toList, column, true⟩ :: scanFrom (column + s.toList.length) rest := by
  obtain ⟨c, w, hcw, hline, hextent⟩ : ∃ c w, s.toList = c :: w ∧ c ≠ '\n' ∧
      extent c (w ++ rest) = (.punctuation, w.length, true) := by
    simp only [operators, List.mem_cons, List.not_mem_nil, or_false] at hs
    rcases hs with rfl | rfl | rfl | rfl | rfl | rfl | rfl | rfl | rfl | rfl | rfl
    all_goals exact ⟨_, _, rfl, by decide, rfl⟩
  rw [hcw, List.cons_append, scanFrom_piece hline hextent, List.length_cons, Nat.add_assoc,
    Nat.add_comm 1]

/-- The characters of an identifier go together, and its first one does not start anything else. -/
theorem word_of_isIdentifier {name : String} (h : Literal.isIdentifier name) :
    ∃ c w, name.toList = c :: w ∧ (∀ d ∈ c :: w, isWordChar d) ∧ c ≠ '$' ∧
      Text.isDecimalDigit c = false := by
  obtain ⟨c, w, hcw, hc, hw⟩ := (Literal.isIdentifier_iff name).mp h
  have halpha {d : Char} (hd : d.isAlpha) : d.toNat < 128 ∧ d ≠ '$' ∧ d.isDigit = false := by
    rw [Literal.isAlpha_iff] at hd
    refine ⟨by omega, ?_, Bool.eq_false_iff.mpr fun hdigit => ?_⟩
    · rintro rfl
      revert hd
      decide
    · simp only [Char.isDigit_iff_toNat, Char.reduceToNat] at hdigit
      omega
  have hword {d : Char} (hd : d = '_' ∨ d = '.' ∨ d = '$' ∨ d.isDigit ∨ d.isAlpha) :
      isWordChar d := by
    rcases hd with rfl | rfl | rfl | hd | hd
    · decide
    · decide
    · decide
    · have hlt : d.toNat < 128 := by
        simp only [Char.isDigit_iff_toNat, Char.reduceToNat] at hd
        omega
      simp [isWordChar, Text.isDecimalDigit_of_isDigit hlt, hd]
    · simp [isWordChar, Text.isLetter_of_isAlpha (halpha hd).1, hd]
  refine ⟨c, w, hcw, List.forall_mem_cons.mpr ⟨hword ?_, fun d hd => hword (hw d hd)⟩, ?_⟩
  · rcases hc with hc | hc | hc <;> simp [hc]
  · rcases hc with rfl | rfl | hc
    · decide
    · decide
    · rw [Text.isDecimalDigit_of_isDigit (halpha hc).1]
      exact (halpha hc).2

end Scanning

/-- Whether characters behind the head of a line are read as tokens of the given kinds and texts,
with nothing to report. -/
def Spells (text : List Char) (spec : List (TokenKind × String)) : Prop :=
  ∀ (file : String) (number : Int) (column : Nat), ∃ ts,
    classify file number true (scanFrom column text) = pure ts ∧ ts.map Token.spelling = spec

section Classifying

variable {rest : List Char} {spec : List (TokenKind × String)} {file : String} {number : Int}

theorem classify_cons {l : Lexeme} {ls : List Lexeme} {k : TokenKind} {started : Bool}
    (hk : l.kind ⟨file, number, l.column⟩ started (ls.head?.map (·.text) = some [':']) = pure k)
    (hl : k ≠ .label) : classify file number started (l :: ls) =
      (classify file number (started || k == .directive || k == .instruction) ls >>= fun ts =>
        pure (⟨l.string, k, ⟨file, number, l.column⟩⟩ :: ts)) := by
  rw [classify]
  dsimp only
  rw [hk, pure_bind, if_neg hl]

theorem Spells.nil : Spells [] [] := fun _ _ _ => ⟨[], by simp [scanFrom, classify], rfl⟩

theorem Spells.cons {text : List Char} {l : Nat → Lexeme} {next : Nat → Nat} {k : TokenKind}
    (hscan : ∀ column, scanFrom column text = l column :: scanFrom (next column) rest)
    (hk : ∀ column loc colon, (l column).kind loc true colon = pure k) (hl : k ≠ .label)
    {s : String} (hs : ∀ column, (l column).string = s) (h : Spells rest spec) :
    Spells text ((k, s) :: spec) := by
  intro file number column
  obtain ⟨ts, hts, hspec⟩ := h file number (next column)
  refine ⟨⟨s, k, ⟨file, number, (l column).column⟩⟩ :: ts, ?_, ?_⟩
  · rw [hscan, classify_cons (hk column _ _) hl, Bool.true_or, Bool.true_or, hts, hs]
    rfl
  · rw [List.map_cons, hspec]
    rfl

theorem Spells.register {w : List Char} (hw : ∀ c ∈ w, isWordChar c) (hr : Stops rest)
    (h : Spells rest spec) :
    Spells ('$' :: (w ++ rest)) ((.register, String.ofList ('$' :: w)) :: spec) :=
  .cons (l := fun column => ⟨.word, '$' :: w, column, true⟩)
    (fun _ => scanFrom_word (by decide) hw hr) (fun _ _ _ => rfl) (by decide) (fun _ => rfl) h

theorem Spells.immediate {c : Char} {w : List Char} (hc : isWordChar c)
    (hd : c ≠ '$' ∧ Text.isDecimalDigit c)
    (hw : ∀ d ∈ w, isWordChar d) (hn : Literal.isNumber (String.ofList (c :: w))) (hr : Stops rest)
    (h : Spells rest spec) :
    Spells (c :: (w ++ rest)) ((.immediate, String.ofList (c :: w)) :: spec) := by
  refine .cons (l := fun column => ⟨.word, c :: w, column, true⟩)
    (fun _ => scanFrom_word hc hw hr) (fun column loc colon => ?_) (by decide) (fun _ => rfl) h
  simp only [kind, wordKind]
  rw [if_neg (by simp [hd.1]), if_pos (by simp [hd.2])]
  exact if_pos hn

theorem Spells.punctuation {c : Char} {k : TokenKind}
    (hc : (c, k) ∈ [(',', TokenKind.comma), ('(', .lparen), (')', .rparen), ('-', .operator)])
    (h : Spells rest spec) : Spells (c :: rest) ((k, String.singleton c) :: spec) := by
  have hchar : c ∈ [',', '(', ')', '-'] := List.mem_map_of_mem (f := Prod.fst) hc
  refine .cons (l := fun column => ⟨.punctuation, [c], column, true⟩)
    (fun _ => scanFrom_punctuation hchar) (fun column loc colon => ?_) ?_ (fun _ => rfl) h
  all_goals
    simp only [List.mem_cons, Prod.mk.injEq, List.not_mem_nil, or_false] at hc
    rcases hc with ⟨rfl, rfl⟩ | ⟨rfl, rfl⟩ | ⟨rfl, rfl⟩ | ⟨rfl, rfl⟩
  all_goals first | rfl | decide

theorem Spells.identifier {name : String} (hn : Literal.isIdentifier name) (hr : Stops rest)
    (h : Spells rest spec) : Spells (name.toList ++ rest) ((.identifier, name) :: spec) := by
  obtain ⟨c, w, hcw, hword, hdollar, hdigit⟩ := word_of_isIdentifier hn
  obtain ⟨hc, hw⟩ := List.forall_mem_cons.mp hword
  have hname : String.ofList (c :: w) = name := hcw ▸ String.ofList_toList
  rw [hcw, List.cons_append]
  refine .cons (l := fun column => ⟨.word, c :: w, column, true⟩)
    (fun _ => scanFrom_word hc hw hr) (fun column loc colon => ?_) (by decide) (fun _ => hname) h
  simp only [kind, wordKind, string, hname, List.head?_cons, Option.some.injEq, Option.any_some]
  rw [if_neg hdollar, if_neg (by simp [hdigit]), if_neg (by simp [hn]), if_pos trivial]

theorem Spells.operator {s : String} (hs : s ∈ operators) (h : Spells rest spec) :
    Spells (s.toList ++ rest) ((.operator, s) :: spec) := by
  refine .cons (l := fun column => ⟨.punctuation, s.toList, column, true⟩)
    (fun _ => scanFrom_operator hs) (fun column loc colon => ?_) (by decide)
    (fun _ => String.ofList_toList) h
  simp only [operators, List.mem_cons, List.not_mem_nil, or_false] at hs
  rcases hs with rfl | rfl | rfl | rfl | rfl | rfl | rfl | rfl | rfl | rfl | rfl <;> rfl

theorem Spells.space (hr : ∀ c, rest.head? = some c → isBlank c = false) (h : Spells rest spec) :
    Spells (' ' :: rest) ((.whitespace, " ") :: spec) :=
  .cons (l := fun column => ⟨.whitespace, [' '], column, true⟩) (fun _ => scanFrom_space hr)
    (fun _ _ _ => rfl) (by decide) (fun _ => rfl) h

/-- Whether a text is an identifier that can be the directive or the instruction of a line. -/
def isHead (name : String) : Bool :=
  Literal.isIdentifier name && name.toList.all isWordChar
    && name.toList.head?.any fun c => c != '$' && !Text.isDecimalDigit c

def headKind (name : String) : TokenKind :=
  if name.toList.head? = some '.' then .directive else .instruction

theorem wordKind_of_isHead {name : String} (h : isHead name) (column : Nat)
    (loc : Source.Location) :
    (⟨.word, name.toList, column, true⟩ : Lexeme).wordKind loc false false =
      pure (headKind name) := by
  simp only [isHead, Bool.and_eq_true, Option.any_eq_true, bne_iff_ne, Bool.not_eq_true'] at h
  obtain ⟨⟨hname, -⟩, c, hc, hdollar, hdigit⟩ := h
  unfold wordKind headKind
  simp only [string, String.ofList_toList, hname, hc]
  rw [if_neg (by simpa using hdollar), if_neg (by simp [hdigit]), if_neg (by decide),
    if_neg (by decide), if_neg (by decide)]
  split <;> rfl

theorem headKind_eq (name : String) : headKind name = .directive ∨ headKind name = .instruction := by
  unfold headKind
  split
  · exact .inl rfl
  · exact .inr rfl

theorem stops_of_blank (hr : rest = [] ∨ rest.head? = some ' ') : Stops rest := by
  rcases hr with rfl | hr
  · exact stops_nil
  · intro d hd
    cases hr.symm.trans hd
    decide

theorem next_ne_colon (hr : rest = [] ∨ rest.head? = some ' ') (column : Nat) :
    (scanFrom column rest).head?.map (·.text) ≠ some [':'] := by
  cases rest with
  | nil => simp [scanFrom]
  | cons d r =>
    obtain rfl : d = ' ' := by simpa using hr
    rw [scanFrom, if_neg (by decide)]
    simp

theorem tokens_of_head {name : String} (hname : isHead name)
    (hr : rest = [] ∨ rest.head? = some ' ') (h : Spells rest spec) (file : String)
    (number : Int) {text : String} (ht : text.toList = name.toList ++ rest) :
    ∃ line, tokenizeLine file number text = pure line ∧
      line.tokens.map Token.spelling = (headKind name, name) :: spec := by
  have hk := wordKind_of_isHead hname 0 ⟨file, number, 0⟩
  have hwords : ∀ d ∈ name.toList, isWordChar d := by
    simp only [isHead, Bool.and_eq_true, List.all_eq_true] at hname
    exact hname.1.2
  have hne : name.toList ≠ [] := by
    intro hnil
    simp [isHead, hnil] at hname
  obtain ⟨c, w, hcw⟩ := List.exists_cons_of_ne_nil hne
  rw [hcw] at hk ht hwords
  obtain ⟨hc, hw⟩ := List.forall_mem_cons.mp hwords
  obtain ⟨ts, hts, hspec⟩ := h file number (0 + 1 + w.length)
  let first : Lexeme := ⟨.word, c :: w, 0, true⟩
  have hfirst : first.kind ⟨file, number, first.column⟩ false
      -- What follows a head is a blank or nothing, but never the colon of a label.
      ((scanFrom (0 + 1 + w.length) rest).head?.map (·.text) = some [':']) = pure (headKind name) := by
    rw [decide_eq_false (next_ne_colon hr _)]
    exact hk
  have hstarted : (false || headKind name == .directive || headKind name == .instruction) = true := by
    rcases headKind_eq name with hhead | hhead <;> rw [hhead] <;> rfl
  have hlabel : headKind name ≠ .label := by
    rcases headKind_eq name with hhead | hhead <;> rw [hhead] <;> decide
  have hstring : first.string = name := (congrArg String.ofList hcw.symm).trans String.ofList_toList
  refine ⟨⟨file, number, text, ⟨first.string, headKind name, ⟨file, number, 0⟩⟩ :: ts⟩, ?_, ?_⟩
  · rw [tokenizeLine, scan, ht, List.cons_append, scanFrom_word hc hw (stops_of_blank hr),
      classify_cons hfirst hlabel, hstarted, hts]
    rfl
  · rw [List.map_cons, hspec, hstring]
    rfl

theorem mem_classify {started : Bool} {ls : List Lexeme} {t : Token}
    (h : t ∈ (classify file number started ls).value) :
    ∃ l ∈ ls, ∃ loc started colon, t = ⟨l.string, (l.kind loc started colon).value, loc⟩ := by
  fun_induction classify file number started ls with
  | case1 => cases h
  | case2 started l rest loc colon ih =>
    simp only [Reported.value_bind, Reported.value_pure, List.mem_cons] at h
    rcases h with rfl | h
    · exact ⟨l, List.mem_cons_self, loc, started, colon, rfl⟩
    · obtain ⟨l', hl', ht⟩ := ih _ h
      refine ⟨l', List.mem_cons_of_mem _ ?_, ht⟩
      split at hl'
      · exact List.mem_of_mem_tail hl'
      · exact hl'

theorem isIdentifier_of_kind {l : Lexeme} {loc : Source.Location} {started colon : Bool}
    (h : (l.kind loc started colon).value = .identifier) : Literal.isIdentifier l.string := by
  unfold kind at h
  split at h
  case h_5 =>
    unfold punctuationKind at h
    repeat' split at h
    all_goals cases h
  case h_6 =>
    unfold wordKind at h
    dsimp only at h
    split at h
    · cases h
    · split at h
      · split at h <;> cases h
      · split at h
        · cases h
        · next hname => simpa using hname
  all_goals cases h

theorem isIdentifier_of_mem {text : String} {t : Token}
    (h : t ∈ (tokenizeLine file number text).value.tokens) (hk : t.kind = .identifier) :
    Literal.isIdentifier t.text := by
  obtain ⟨l, -, loc, started, colon, rfl⟩ := mem_classify h
  exact isIdentifier_of_kind hk

end Classifying

end Lexeme

end MipsToolchain
