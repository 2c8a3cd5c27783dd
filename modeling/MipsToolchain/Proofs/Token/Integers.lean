import MipsToolchain.Proofs.Scanner
import MipsToolchain.Proofs.Text.Numerals
import MipsToolchain.Token.Literal

namespace MipsToolchain.Literal

open Scanner Text

/-- What digits of a base denote, one behind the other. Underscores between them and behind them do
not count, if there may be any. -/
inductive Digits (b : Nat) (underscores : Bool) : List Char → Nat → Prop
  | first {c : Char} {d : Nat} : IsDigit b d c → Digits b underscores [c] d
  | next {cs : List Char} {n : Nat} {c : Char} {d : Nat} :
      Digits b underscores cs n → IsDigit b d c → Digits b underscores (cs ++ [c]) (n * b + d)
  | underscore {cs : List Char} {n : Nat} :
      underscores = true → Digits b underscores cs n → Digits b underscores (cs ++ ['_']) n

def marks : List (Char × Nat) := [('b', 2), ('B', 2), ('o', 8), ('O', 8), ('x', 16), ('X', 16)]

/-- What an integer literal denotes. Without a mark it is decimal, also if it starts with a zero. -/
inductive Denotes : List Char → Nat → Prop
  | decimal {cs : List Char} {n : Nat} : Digits 10 false cs n → Denotes cs n
  | marked {m : Char} {b : Nat} {cs : List Char} {n : Nat} :
      (m, b) ∈ marks → Digits b true cs n → Denotes ('0' :: m :: cs) n

variable {b n : Nat} {u : Bool} {cs : List Char} {c : Char}

section Digits

theorem ne_underscore {d : Nat} (hb : b ≤ 16) (h : IsDigit b d c) : c ≠ '_' := by
  rintro rfl
  have hsome := Option.isSome_of_eq_some ((digitValue?_eq_some hb).mpr h)
  rw [isSome_digitValue?] at hsome
  simp only [Char.reduceToNat] at hsome
  omega

def plain (underscores : Bool) (cs : List Char) : List Char :=
  cs.filter fun c => !underscores || decide (c ≠ '_')

theorem plain_false (cs : List Char) : plain false cs = cs := List.filter_eq_self.mpr fun _ _ => rfl

theorem plain_true (cs : List Char) : plain true cs = cs.filter (· ≠ '_') := rfl

theorem plain_underscore (cs : List Char) : plain true (cs ++ ['_']) = plain true cs := by
  simp [plain]

theorem plain_concat (h : u = false ∨ c ≠ '_') : plain u (cs ++ [c]) = plain u cs ++ [c] := by
  simpa [plain] using h

theorem plain_ne_nil (h : c ≠ '_') : plain u (c :: cs) ≠ [] := by
  simp [plain, h]

theorem digits_iff (hb : b ≤ 16) : Digits b u cs n ↔
    cs.head? ≠ some '_' ∧ numeral? b (plain u cs) = some n := by
  have hne {ds : List Char} {n : Nat} (h : numeral? b ds = some n) : ds ≠ [] :=
    (isSome_numeral?.mp (Option.isSome_of_eq_some h)).1
  have hhead {cs : List Char} {n : Nat} {e : Char} (hn : numeral? b (plain u cs) = some n) :
      (cs ++ [e]).head? = cs.head? := by
    cases cs with
    | nil => exact absurd rfl (hne hn)
    | cons c r => rfl
  constructor
  · intro h
    induction h with
    | first hd =>
      have hc := ne_underscore hb hd
      rw [← List.nil_append [_], plain_concat (.inr hc)]
      simp [hc, plain, numeral?_singleton, (digitValue?_eq_some hb).mpr hd]
    | next _ hd ih =>
      obtain ⟨hfirst, hn⟩ := ih
      rw [hhead hn, plain_concat (.inr (ne_underscore hb hd)), numeral?_concat (hne hn), hn]
      simp [hfirst, (digitValue?_eq_some hb).mpr hd]
    | underscore hu _ ih =>
      subst hu
      obtain ⟨hfirst, hn⟩ := ih
      rw [hhead hn, plain_underscore]
      exact ⟨hfirst, hn⟩
  · rintro ⟨hfirst, hn⟩
    -- Digits are read from the left, so that the last character is the one to take off.
    induction cs using List.reverseRecOn generalizing n with
    | nil => exact absurd rfl (hne hn)
    | append_singleton cs c ih =>
      have hdigit {d : Nat} (hc : digitValue? b c = some d) : IsDigit b d c :=
        (digitValue?_eq_some hb).mp hc
      cases cs with
      | nil =>
        have hc : c ≠ '_' := by simpa using hfirst
        rw [plain_concat (.inr hc)] at hn
        exact .first (hdigit (by simpa [plain, numeral?_singleton] using hn))
      | cons e cs =>
        have he : e ≠ '_' := by simpa using hfirst
        by_cases hc : u = false ∨ c ≠ '_'
        · rw [plain_concat hc, numeral?_concat (plain_ne_nil he)] at hn
          obtain ⟨m, hm, hn⟩ := Option.bind_eq_some_iff.mp hn
          obtain ⟨d, hd, rfl⟩ := Option.map_eq_some_iff.mp hn
          exact .next (ih (by simpa using hfirst) hm) (hdigit hd)
        · obtain ⟨rfl, rfl⟩ : u = true ∧ c = '_' := by simpa using hc
          rw [plain_underscore] at hn
          exact .underscore rfl (ih (by simpa using hfirst) hn)

theorem exists_digits_iff (hb : b ≤ 16) : (∃ n, Digits b u cs n) ↔
    ∃ c r, cs = c :: r ∧ (digitValue? b c).isSome ∧
      ∀ d ∈ r, (digitValue? b d).isSome ∨ (u = true ∧ d = '_') := by
  simp only [digits_iff hb, exists_and_left, ← Option.isSome_iff_exists, isSome_numeral?]
  constructor
  · rintro ⟨hfirst, hne, hdigits⟩
    cases cs with
    | nil => exact absurd rfl hne
    | cons c r =>
      have hc : c ≠ '_' := by simpa using hfirst
      refine ⟨c, r, rfl, hdigits c (by simp [plain, hc]), fun d hd => ?_⟩
      by_cases hplain : u = false ∨ d ≠ '_'
      · exact .inl (hdigits d (List.mem_filter.mpr ⟨List.mem_cons_of_mem _ hd, by simpa using hplain⟩))
      · exact .inr (by simpa using hplain)
  · rintro ⟨c, r, rfl, hc, hr⟩
    have hunderscore : c ≠ '_' := by
      obtain ⟨d, hd⟩ := Option.isSome_iff_exists.mp hc
      exact ne_underscore hb ((digitValue?_eq_some hb).mp hd)
    refine ⟨by simpa using hunderscore, plain_ne_nil hunderscore, fun d hd => ?_⟩
    obtain ⟨hmem, hplain⟩ := List.mem_filter.mp hd
    rcases List.mem_cons.mp hmem with rfl | hmem
    · exact hc
    · rcases hr d hmem with hd | ⟨rfl, rfl⟩
      · exact hd
      · cases hplain

end Digits

section Marks

structure IsMark (mark : String) (digit : Scanner) (m : Char) (b : Nat) : Prop where
  chars : mark.toList = ['0', m]
  size : mark.utf8ByteSize = 2
  lower : m.toLower = m
  letter : 97 ≤ m.toNat
  base : b ≤ 16
  digit : Single digit fun c => (digitValue? b c).isSome

variable {mark mark' : String} {m m' : Char} {b' : Nat} {x y : Scanner}

theorem toLower_cases (c : Char) : c.toLower = c ∨
    (65 ≤ c.toNat ∧ c.toNat ≤ 90 ∧ c.toLower.toNat = c.toNat + 32) := by
  unfold Char.toLower
  split
  · next h =>
    have hlo : 65 ≤ c.val.toNat := UInt32.le_iff_toNat_le.mp h.1
    have hhi : c.val.toNat ≤ 90 := UInt32.le_iff_toNat_le.mp h.2
    refine .inr ⟨hlo, hhi, ?_⟩
    change (c.val + 32).toNat = c.val.toNat + 32
    rw [UInt32.toNat_add]
    exact Nat.mod_eq_of_lt (by have : (32 : UInt32).toNat = 32 := rfl; omega)
  · exact .inl rfl

theorem toLower_eq_zero : c.toLower = '0' ↔ c = '0' := by
  constructor
  · intro h
    rcases toLower_cases c with hc | ⟨hlo, -, hc⟩
    · exact hc.symm.trans h
    · have hzero : '0'.toNat = 48 := rfl
      rw [h, hzero] at hc
      omega
  · rintro rfl
    rfl

theorem matchCaseless_mark (h : IsMark mark x m b) : matchCaseless mark cs =
    match cs with
    | z :: c :: _ => if z = '0' ∧ c.toLower = m then 2 else 0
    | _ => 0 := by
  unfold matchCaseless
  rw [h.size, h.chars]
  have hzero : '0'.toLower = '0' := rfl
  rcases cs with _ | ⟨z, _ | ⟨c, r⟩⟩
  · rfl
  · rfl
  · simp [h.lower, hzero, eq_comm (a := '0'), toLower_eq_zero, eq_comm (a := m)]

theorem run_marked (h : IsMark mark x m b) : (marked mark x).run cs =
    match cs with
    | z :: c :: d :: r =>
      if (z = '0' ∧ c.toLower = m) ∧ (digitValue? b d).isSome then
        (r.takeWhile fun e => (digitValue? b e).isSome || e == '_').length + 3
      else 0
    | _ => 0 := by
  have hrest := (h.digit.any_cons ((single_unit '_').any_cons single_any_nil)).many
  have hcaseless (cs : List Char) : (caseless mark).run cs = matchCaseless mark cs := by rw [run]
  rw [marked, run_sequenceOpt_pair, run_sequence_pair, hcaseless, matchCaseless_mark h]
  rcases cs with _ | ⟨z, _ | ⟨c, _ | ⟨d, r⟩⟩⟩
  · rfl
  · rfl
  · by_cases hmark : z = '0' ∧ c.toLower = m <;> simp [hmark, h.digit []]
  · by_cases hmark : z = '0' ∧ c.toLower = m
    · cases hd : (digitValue? b d).isSome <;>
        simp [hmark, hd, h.digit (d :: r), hrest, Nat.add_comm]
    · simp [hmark]

theorem mark_of_run (h : IsMark mark x m b) (hrun : (marked mark x).run cs ≠ 0) :
    ∃ c r, cs = '0' :: c :: r ∧ c.toLower = m := by
  rw [run_marked h] at hrun
  rcases cs with _ | ⟨z, _ | ⟨c, _ | ⟨d, r⟩⟩⟩
  · exact absurd rfl hrun
  · exact absurd rfl hrun
  · exact absurd rfl hrun
  · obtain ⟨⟨rfl, hc⟩, -⟩ := (ite_ne_right_iff.mp hrun).1
    exact ⟨c, d :: r, rfl, hc⟩

theorem accepts_marked (h : IsMark mark x m b) : (marked mark x).accepts cs ↔
    ∃ c r n, cs = '0' :: c :: r ∧ c.toLower = m ∧ Digits b true r n := by
  simp only [exists_and_left, exists_digits_iff h.base]
  rw [accepts, run_marked h]
  rcases cs with _ | ⟨z, _ | ⟨c, _ | ⟨d, r⟩⟩⟩
  · simp
  · simp
  · simp
  · by_cases hmark : (z = '0' ∧ c.toLower = m) ∧ (digitValue? b d).isSome
    · simp [hmark, length_takeWhile_eq]
    · refine iff_of_false (by simp [hmark]) ?_
      rintro ⟨c', r', heq, hc, d', r'', rfl, hd, -⟩
      obtain ⟨rfl, rfl, rfl, rfl⟩ : z = '0' ∧ c = c' ∧ d = d' ∧ r = r'' := by simpa using heq
      exact hmark ⟨⟨rfl, hc⟩, hd⟩

theorem not_accepts_marked (h : IsMark mark x m b) (h' : IsMark mark' y m' b') (hne : m ≠ m')
    (hrun : (marked mark x).run cs ≠ 0) : ¬ (marked mark' y).accepts cs := by
  obtain ⟨c, r, rfl, hc⟩ := mark_of_run h hrun
  rw [accepts_marked h']
  rintro ⟨c', r', n, heq, hc', -⟩
  obtain ⟨rfl, rfl⟩ : c = c' ∧ r = r' := by simpa using heq
  exact hne (hc.symm.trans hc')

end Marks

section Numbers

theorem single_decimalDigit : Single decimalDigit fun c => (digitValue? 10 c).isSome := by
  refine (single_within _ _).congr fun c => ?_
  simp only [isSome_digitValue?, char_le, Char.reduceToNat, decide_eq_true_eq]
  omega

theorem isMark_binary : IsMark "0b" binaryDigit 'b' 2 where
  chars := rfl
  size := rfl
  lower := rfl
  letter := by decide
  base := by decide
  digit := by
    refine (single_within _ _).congr fun c => ?_
    simp only [isSome_digitValue?, char_le, Char.reduceToNat, decide_eq_true_eq]
    omega

theorem isMark_octal : IsMark "0o" octalDigit 'o' 8 where
  chars := rfl
  size := rfl
  lower := rfl
  letter := by decide
  base := by decide
  digit := by
    refine (single_within _ _).congr fun c => ?_
    simp only [isSome_digitValue?, char_le, Char.reduceToNat, decide_eq_true_eq]
    omega

theorem isMark_hex : IsMark "0x" hexDigit 'x' 16 where
  chars := rfl
  size := rfl
  lower := rfl
  letter := by decide
  base := by decide
  digit := by
    refine ((single_within _ _).any_cons ((single_within _ _).any_cons
      ((single_within _ _).any_cons single_any_nil))).congr fun c => ?_
    simp only [isSome_digitValue?, char_le, Char.reduceToNat, Bool.or_false, Bool.or_eq_true,
      decide_eq_true_eq]
    omega

theorem accepts_decimal : (sequenceOpt [decimalDigit, many decimalDigit]).accepts cs ↔
    ∃ n, Digits 10 false cs n := by
  rw [accepts_span single_decimalDigit single_decimalDigit, exists_digits_iff (by decide)]
  simp

theorem not_accepts_decimal {mark : String} {x : Scanner} {m : Char} (h : IsMark mark x m b)
    (hrun : (marked mark x).run cs ≠ 0) :
    ¬ (sequenceOpt [decimalDigit, many decimalDigit]).accepts cs := by
  obtain ⟨c, r, rfl, rfl⟩ := mark_of_run h hrun
  rw [accepts_span single_decimalDigit single_decimalDigit]
  rintro ⟨z, r', heq, -, hr⟩
  obtain ⟨rfl, rfl⟩ := List.cons.inj heq
  have hc := (isSome_digitValue? 10 c).mp (hr c List.mem_cons_self)
  have hletter := h.letter
  rcases toLower_cases c with hlower | ⟨hlo, hhi, -⟩
  · rw [hlower] at hletter
    omega
  · omega

theorem eq_of_toLower {l : Char} (h : c.toLower = l) : c = l ∨ c = Char.ofNat (l.toNat - 32) := by
  subst h
  rcases toLower_cases c with hc | ⟨-, -, hc⟩
  · exact .inl hc.symm
  · rw [hc, Nat.add_sub_cancel, Char.ofNat_toNat]
    exact .inr rfl

theorem mem_marks_iff : (c, b) ∈ marks ↔
    (c.toLower = 'b' ∧ b = 2) ∨ (c.toLower = 'o' ∧ b = 8) ∨ (c.toLower = 'x' ∧ b = 16) := by
  simp only [marks, List.mem_cons, List.not_mem_nil, or_false, Prod.mk.injEq]
  constructor
  · rintro (⟨rfl, rfl⟩ | ⟨rfl, rfl⟩ | ⟨rfl, rfl⟩ | ⟨rfl, rfl⟩ | ⟨rfl, rfl⟩ | ⟨rfl, rfl⟩) <;>
      decide
  · rintro (⟨h, rfl⟩ | ⟨h, rfl⟩ | ⟨h, rfl⟩) <;> rcases eq_of_toLower h with rfl | rfl <;> decide

theorem denotes_iff : Denotes cs n ↔ Digits 10 false cs n ∨
    ∃ c b r, cs = '0' :: c :: r ∧ (c, b) ∈ marks ∧ Digits b true r n := by
  constructor
  · rintro (h | ⟨hmark, h⟩)
    · exact .inl h
    · exact .inr ⟨_, _, _, rfl, hmark, h⟩
  · rintro (h | ⟨c, b, r, rfl, hmark, h⟩)
    · exact .decimal h
    · exact .marked hmark h

/-- The texts that are recognised as integer literals are those that denote a number. -/
theorem isNumber_iff (text : String) : isNumber text ↔ ∃ n, Denotes text.toList n := by
  rw [isNumber, number, accepts_any]
  · simp only [List.mem_cons, List.not_mem_nil, or_false, exists_eq_or_imp, exists_eq_left,
      accepts_decimal, accepts_marked isMark_binary, accepts_marked isMark_octal,
      accepts_marked isMark_hex, denotes_iff, mem_marks_iff]
    grind
  · simp only [List.pairwise_cons, List.forall_mem_cons, List.not_mem_nil]
    exact ⟨⟨not_accepts_marked isMark_binary isMark_octal (by decide),
      not_accepts_marked isMark_binary isMark_hex (by decide), not_accepts_decimal isMark_binary,
      nofun⟩, ⟨not_accepts_marked isMark_octal isMark_hex (by decide),
      not_accepts_decimal isMark_octal, nofun⟩, ⟨not_accepts_decimal isMark_hex, nofun⟩,
      nofun, .nil⟩

theorem baseAndDigits_of_denotes (h : Denotes cs n) :
    numeral? (baseAndDigits cs).1 (baseAndDigits cs).2 = some n := by
  cases h with
  | decimal h =>
    have hn := ((digits_iff (by decide)).mp h).2
    rw [plain_false] at hn
    have hdigits := (isSome_numeral?.mp (Option.isSome_of_eq_some hn)).2
    -- A decimal digit is no mark for a base, so that the whole text is read in base ten.
    have hbase : baseAndDigits cs = (10, cs) := by
      unfold baseAndDigits
      split
      · next m d r =>
        have hm := (isSome_digitValue? 10 m).mp (hdigits m (by simp))
        have hm : m.toNat ≤ 57 := by omega
        have hlower : m.toLower = m := (toLower_cases m).resolve_right (by omega)
        dsimp only
        rw [hlower]
        split
        · exact absurd hm (by decide)
        · exact absurd hm (by decide)
        · exact absurd hm (by decide)
        · rfl
      · rfl
    rw [hbase]
    exact hn
  | @marked m b r _ hmark h =>
    rw [mem_marks_iff] at hmark
    have hb : b ≤ 16 := by omega
    obtain ⟨-, hn⟩ := (digits_iff hb).mp h
    rw [plain_true] at hn
    cases r with
    | nil => cases hn
    | cons d r =>
      rcases hmark with ⟨hm, rfl⟩ | ⟨hm, rfl⟩ | ⟨hm, rfl⟩ <;>
      · rw [baseAndDigits, hm]
        exact hn

theorem integer?_of_denotes {text : String} (h : Denotes text.toList n) :
    integer? text = if n < 2 ^ 64 then some (Int64.ofNat n) else none := by
  have hvalue := baseAndDigits_of_denotes h
  unfold integer?
  rw [if_pos ((isNumber_iff text).mpr ⟨n, h⟩)]
  dsimp only
  rw [hvalue]
  rfl

theorem ofNat_eq_iff {v : Int64} (hn : n < 2 ^ 64) : Int64.ofNat n = v ↔ v.toInt % 2 ^ 64 = n := by
  rw [← Int64.ofInt_eq_ofNat, Int64.ofInt_eq_iff_bmod_eq_toInt]
  constructor
  · intro h
    rw [← h]
    exact Int.bmod_emod.trans (Int.emod_eq_of_lt (by omega) (by omega))
  · intro h
    rw [← h]
    exact (Int.emod_bmod _ _).trans v.toInt_bmod

end Numbers

section Identifiers

theorem isAlpha_iff : c.isAlpha ↔
    (97 ≤ c.toNat ∧ c.toNat ≤ 122) ∨ (65 ≤ c.toNat ∧ c.toNat ≤ 90) := by
  have halpha : c.isAlpha =
      (decide (65 ≤ c.val ∧ c.val ≤ 90) || (decide (97 ≤ c.val) && decide (c.val ≤ 122))) := rfl
  simp [halpha, UInt32.le_iff_toNat_le, or_comm]

theorem single_identifierStart :
    Single identifierStart fun c => c == '_' || c == '.' || c.isAlpha := by
  refine ((single_unit _).any_cons ((single_unit _).any_cons ((single_within _ _).any_cons
    ((single_within _ _).any_cons single_any_nil)))).congr fun c => ?_
  simp only [Bool.or_eq_true, isAlpha_iff, char_le, Char.reduceToNat, decide_eq_true_eq,
    Bool.false_eq_true, or_false, or_assoc]

theorem single_identifierRest : Single identifierRest fun c =>
    c == '_' || c == '.' || c == '$' || c.isDigit || c.isAlpha := by
  refine ((single_unit _).any_cons ((single_unit _).any_cons ((single_unit _).any_cons
    ((single_within _ _).any_cons ((single_within _ _).any_cons ((single_within _ _).any_cons
      single_any_nil)))))).congr fun c => ?_
  simp only [Bool.or_eq_true, isAlpha_iff, Char.isDigit_iff_toNat, char_le, Char.reduceToNat,
    decide_eq_true_eq, Bool.false_eq_true, or_false, or_assoc]

/-- An identifier starts with a letter, an underscore or a dot, and then may also have digits and
dollar signs. -/
theorem isIdentifier_iff (text : String) : isIdentifier text ↔
    ∃ c r, text.toList = c :: r ∧ (c = '_' ∨ c = '.' ∨ c.isAlpha) ∧
      ∀ d ∈ r, d = '_' ∨ d = '.' ∨ d = '$' ∨ d.isDigit ∨ d.isAlpha := by
  rw [isIdentifier, identifier, accepts_span single_identifierStart single_identifierRest]
  simp only [Bool.or_eq_true, beq_iff_eq, or_assoc]

end Identifiers

section Printing

theorem isNumber_ofList (h : Denotes cs n) : isNumber (String.ofList cs) :=
  (isNumber_iff _).mpr ⟨n, by rwa [String.toList_ofList]⟩

theorem integer?_ofList (h : Denotes cs n) (hn : n < 2 ^ 64) :
    integer? (String.ofList cs) = some (Int64.ofNat n) := by
  rw [integer?_of_denotes (by rwa [String.toList_ofList]), if_pos hn]

theorem digits_of_digitChar (hb : b ≤ 16) (hcs : ∀ c ∈ cs, ∃ d < b, c = d.digitChar)
    (hn : numeral? b cs = some n) : Digits b u cs n := by
  have hplain : ∀ c ∈ cs, c ≠ '_' := by
    intro c hc
    obtain ⟨d, hd, rfl⟩ := hcs c hc
    exact ne_underscore hb ⟨hd, .inl rfl⟩
  rw [digits_iff hb, plain, List.filter_eq_self.mpr fun c hc => by simp [hplain c hc]]
  exact ⟨fun hfirst => hplain _ (List.mem_of_head? hfirst) rfl, hn⟩

theorem denotes_decimal (n : Nat) : Denotes (Nat.toDigits 10 n) n :=
  .decimal (digits_of_digitChar (by decide)
    (fun _ hc => digitChar_of_mem_toDigits (by decide) hc)
    (numeral?_toDigits (by decide) (by decide) n))

theorem hexDigits_padded (k n : Nat) :
    ∀ c ∈ List.replicate k '0' ++ Nat.toDigits 16 n, ∃ d < 16, c = d.digitChar := by
  intro c hc
  rcases List.mem_append.mp hc with hc | hc
  · exact ⟨0, by decide, (List.mem_replicate.mp hc).2⟩
  · exact digitChar_of_mem_toDigits (by decide) hc

theorem denotes_hex (k n : Nat) :
    Denotes ('0' :: 'x' :: (List.replicate k '0' ++ Nat.toDigits 16 n)) n := by
  refine .marked (b := 16) (by decide) (digits_of_digitChar (by decide) (hexDigits_padded k n) ?_)
  rw [numeral?_zeros (by decide) k Nat.toDigits_ne_nil]
  exact numeral?_toDigits (by decide) (by decide) n

end Printing

/-- What integer literals and identifiers are, and which integer a literal is read as. A number
that does not fit into 64 bits is no integer, and others are taken for the signed integer with the
same bits. -/
theorem literals_recognised (text : String) :
    (isNumber text ↔ ∃ n, Denotes text.toList n) ∧
      (∀ v, integer? text = some v ↔
        ∃ n : Nat, Denotes text.toList n ∧ n < 2 ^ 64 ∧ v.toInt % 2 ^ 64 = n) ∧
      (isIdentifier text ↔ ∃ c r, text.toList = c :: r ∧ (c = '_' ∨ c = '.' ∨ c.isAlpha) ∧
        ∀ d ∈ r, d = '_' ∨ d = '.' ∨ d = '$' ∨ d.isDigit ∨ d.isAlpha) := by
  refine ⟨isNumber_iff text, fun v => ⟨fun h => ?_, ?_⟩, isIdentifier_iff text⟩
  · have hnumber : isNumber text := by
      unfold integer? at h
      split at h
      · assumption
      · cases h
    obtain ⟨n, hn⟩ := (isNumber_iff text).mp hnumber
    rw [integer?_of_denotes hn] at h
    obtain ⟨hlt, hv⟩ := Option.ite_none_right_eq_some.mp h
    exact ⟨n, hn, hlt, (ofNat_eq_iff hlt).mp (Option.some.inj hv)⟩
  · rintro ⟨n, hn, hlt, hv⟩
    rw [integer?_of_denotes hn, if_pos hlt, (ofNat_eq_iff hlt).mpr hv]

end MipsToolchain.Literal
