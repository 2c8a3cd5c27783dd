import Mathlib.Data.List.Forall2
import MipsToolchain.Assembly.Statement
import MipsToolchain.Proofs.Token.Spelling

namespace MipsToolchain

def TokenKind.separators : List TokenKind := [.comma, .whitespace, .comment, .unknown]

abbrev Spelling := TokenKind × String

def IsOperand (g : List Spelling) : Prop := g ≠ [] ∧ ∀ p ∈ g, p.1 ∉ TokenKind.separators

open Lexeme

/-- Characters that are read as an operand with the given tokens, where another operand or nothing
follows. -/
structure Printable (text : List Char) (spec : List Spelling) : Prop where
  reads : ∀ rest spec', Stops rest → Spells rest spec' → Spells (text ++ rest) (spec ++ spec')
  starts : ∃ c r, text = c :: r ∧ isBlank c = false
  operand : IsOperand spec

namespace Printable

theorem register {w : List Char} (hw : ∀ c ∈ w, isWordChar c) :
    Printable ('$' :: w) [(.register, String.ofList ('$' :: w))] where
  reads _ _ hr h := .register hw hr h
  starts := ⟨'$', w, rfl, by decide⟩
  operand := ⟨by simp, by simp [TokenKind.separators]⟩

theorem immediate {c : Char} {w : List Char} (hc : c ≠ '$' ∧ Text.isDecimalDigit c)
    (hw : ∀ d ∈ c :: w, isWordChar d) (hn : Literal.isNumber (String.ofList (c :: w))) :
    Printable (c :: w) [(.immediate, String.ofList (c :: w))] where
  reads _ _ hr h :=
    have hw := List.forall_mem_cons.mp hw
    .immediate hw.1 hc hw.2 hn hr h
  starts := ⟨c, w, rfl, (not_isBlank (hw c List.mem_cons_self)).1⟩
  operand := ⟨by simp, by simp [TokenKind.separators]⟩

variable {text : List Char} {spec : List Spelling}

theorem minus (h : Printable text spec) : Printable ('-' :: text) ((.operator, "-") :: spec) where
  reads rest spec' hr hrest := .punctuation (by simp) (h.reads rest spec' hr hrest)
  starts := ⟨'-', text, rfl, by decide⟩
  operand := ⟨by simp, List.forall_mem_cons.mpr ⟨by decide, h.operand.2⟩⟩

theorem based {base : List Char} {spec' : List Spelling} (h : Printable text spec)
    (h' : Printable base spec') :
    Printable (text ++ '(' :: (base ++ [')'])) (spec ++ (.lparen, "(") :: (spec' ++ [(.rparen, ")")])) where
  reads rest tail _ hrest := by
    have hclose : Spells (')' :: rest) ((.rparen, ")") :: tail) := .punctuation (by simp) hrest
    have hbase : Spells ('(' :: (base ++ ')' :: rest))
        ((.lparen, "(") :: (spec' ++ (.rparen, ")") :: tail)) :=
      .punctuation (by simp) (h'.reads _ _ (stops_cons (by decide)) hclose)
    simpa using h.reads _ _ (stops_cons (by decide)) hbase
  starts := by
    obtain ⟨c, r, rfl, hc⟩ := h.starts
    exact ⟨c, _, rfl, hc⟩
  operand := by
    refine ⟨by simp, fun p hp => ?_⟩
    simp only [List.mem_append, List.mem_cons, List.not_mem_nil, or_false] at hp
    rcases hp with hp | rfl | hp | rfl
    · exact h.operand.2 p hp
    · decide
    · exact h'.operand.2 p hp
    · decide

end Printable

def listing : List (List Spelling) → List Spelling
  | [] => []
  | [g] => g
  | g :: gs => g ++ (.comma, ",") :: (.whitespace, " ") :: listing gs

theorem Printable.not_blank {text : List Char} {spec : List Spelling} (h : Printable text spec)
    (texts : List (List Char)) :
    ∀ d, ([',', ' '].intercalate (text :: texts)).head? = some d → isBlank d = false := by
  obtain ⟨c, r, rfl, hc⟩ := h.starts
  intro d hd
  obtain rfl : c = d := by
    cases texts with
    | nil => simpa using hd
    | cons text texts =>
      rw [List.intercalate_cons_cons] at hd
      simpa using hd
  exact hc

theorem spells_listing {texts : List (List Char)} {specs : List (List Spelling)}
    (h : List.Forall₂ Printable texts specs) :
    Spells ([',', ' '].intercalate texts) (listing specs) := by
  induction h with
  | nil => exact .nil
  | @cons text spec texts specs hp htexts ih =>
    cases htexts with
    | nil =>
      have hlast := hp.reads [] [] stops_nil .nil
      rw [List.append_nil, List.append_nil] at hlast
      rwa [List.intercalate_singleton]
    | @cons text' spec' texts specs hp' htexts =>
      rw [List.intercalate_cons_cons, List.append_assoc]
      exact hp.reads _ _ (stops_cons (by decide))
        (.punctuation (by simp) (.space (hp'.not_blank texts) ih))

theorem isOperand_of_printable {texts : List (List Char)} {specs : List (List Spelling)}
    (h : List.Forall₂ Printable texts specs) : ∀ g ∈ specs, IsOperand g := by
  induction h with
  | nil => nofun
  | cons hp _ ih => exact List.forall_mem_cons.mpr ⟨hp.operand, ih⟩

namespace Statement

theorem splitCommas_append {as : List Token} (ha : ∀ t ∈ as, t.kind ≠ .comma) {c : Token}
    (hc : c.kind = .comma) (ts : List Token) :
    splitCommas (as ++ c :: ts) = as :: splitCommas ts := by
  induction as with
  | nil => simp [splitCommas, hc]
  | cons t as ih =>
    obtain ⟨ht, hrest⟩ := List.forall_mem_cons.mp ha
    rw [List.cons_append, splitCommas, if_neg ht, ih hrest]

theorem splitCommas_of_no_comma {as : List Token} (ha : ∀ t ∈ as, t.kind ≠ .comma) :
    splitCommas as = [as] := by
  induction as with
  | nil => rfl
  | cons t as ih =>
    obtain ⟨ht, hrest⟩ := List.forall_mem_cons.mp ha
    rw [splitCommas, if_neg ht, ih hrest]

theorem arguments_of_ne_nil {ts : List Token} (h : ts ≠ []) : arguments ts = splitCommas ts := by
  cases ts with
  | nil => exact absurd rfl h
  | cons t ts => rfl

section Operands

variable {specs : List (List Spelling)} (hs : ∀ g ∈ specs, IsOperand g)
include hs

theorem splitCommas_spelled {ts : List Token} (hne : specs ≠ [])
    (h : ts.map Token.spelling = [(.comma, ",")].intercalate specs) :
    (splitCommas ts).map (List.map Token.spelling) = specs := by
  have hkinds : ∀ {as : List Token} {g : List Spelling}, as.map Token.spelling = g →
      IsOperand g → ∀ t ∈ as, t.kind ≠ .comma := by
    rintro as g rfl hg t ht hcomma
    refine hg.2 t.spelling (List.mem_map_of_mem ht) ?_
    change t.kind ∈ TokenKind.separators
    rw [hcomma]
    decide
  induction specs generalizing ts with
  | nil => exact absurd rfl hne
  | cons g specs ih =>
    obtain ⟨hg, hrest⟩ := List.forall_mem_cons.mp hs
    cases specs with
    | nil =>
      rw [List.intercalate_singleton] at h
      rw [splitCommas_of_no_comma (hkinds h hg), List.map_singleton, h]
    | cons g' specs =>
      rw [List.intercalate_cons_cons, List.append_assoc, List.singleton_append] at h
      obtain ⟨as, bs, rfl, has, hbs⟩ := List.map_eq_append_iff.mp h
      obtain ⟨c, cs, rfl, hc, hcs⟩ := List.map_eq_cons_iff.mp hbs
      rw [splitCommas_append (hkinds has hg) (congrArg Prod.fst hc), List.map_cons, has,
        ih hrest (by simp) hcs]

theorem filter_listing :
    (listing specs).filter (fun p => p.1 != .whitespace && p.1 != .comment) =
      [(.comma, ",")].intercalate specs := by
  induction specs with
  | nil => rfl
  | cons g specs ih =>
    obtain ⟨hg, hrest⟩ := List.forall_mem_cons.mp hs
    have hself : g.filter (fun p => p.1 != .whitespace && p.1 != .comment) = g := by
      refine List.filter_eq_self.mpr fun p hp => ?_
      have hkind := hg.2 p hp
      simp only [TokenKind.separators, List.mem_cons, not_or] at hkind
      simp [hkind]
    cases specs with
    | nil => rw [listing, List.intercalate_singleton, hself]
    | cons g' specs =>
      rw [listing, List.filter_append, hself, List.filter_cons_of_pos (by rfl),
        List.filter_cons_of_neg (by simp), ih hrest, List.intercalate_cons_cons, List.append_assoc]
      · rfl
      · simp

theorem known_intercalate : ∀ p ∈ [(TokenKind.comma, ",")].intercalate specs, p.1 ≠ .unknown := by
  induction specs with
  | nil => simp
  | cons g specs ih =>
    obtain ⟨hg, hrest⟩ := List.forall_mem_cons.mp hs
    have hknown : ∀ p ∈ g, p.1 ≠ .unknown := fun p hp hunknown => hg.2 p hp (by
      rw [hunknown]
      decide)
    cases specs with
    | nil => simpa using hknown
    | cons g' specs =>
      intro p hp
      rw [List.intercalate_cons_cons, List.append_assoc] at hp
      rcases List.mem_append.mp hp with hp | hp
      · exact hknown p hp
      · rcases List.mem_cons.mp hp with rfl | hp
        · nofun
        · exact ih hrest p hp

theorem intercalate_ne_nil (hne : specs ≠ []) : [(TokenKind.comma, ",")].intercalate specs ≠ [] := by
  match specs, hne with
  | [g], _ => simpa using (hs g (by simp)).1
  | g :: g' :: gs, _ =>
    rw [List.intercalate_cons_cons]
    simp

theorem parse_spelled {line : TokenLine} {k : TokenKind} {name : String}
    (hk : k = .directive ∨ k = .instruction)
    (h : line.tokens.map Token.spelling =
      (k, name) :: if specs = [] then [] else (.whitespace, " ") :: listing specs) :
    ∃ b : StatementBody, parse line = pure (⟨[], some b⟩, true) ∧ b.head.kind = k ∧
      b.head.text = name ∧ b.args.map (List.map Token.spelling) = specs := by
  -- Blanks do not count, so only the commas between the operands are left of the listing.
  have hsignificant : line.significant.map Token.spelling =
      (k, name) :: [(.comma, ",")].intercalate specs := by
    have hfilter := congrArg (List.filter fun p => p.1 != .whitespace && p.1 != .comment) h
    rw [List.filter_map, List.filter_cons_of_pos (by rcases hk with rfl | rfl <;> rfl)] at hfilter
    refine hfilter.trans (congrArg _ ?_)
    split
    · next hnil =>
      rw [hnil]
      rfl
    · rw [List.filter_cons_of_neg (by simp), filter_listing hs]
  obtain ⟨head, rest, htokens, hhead, hrest⟩ := List.map_eq_cons_iff.mp hsignificant
  have hkind : head.kind = k := congrArg Prod.fst hhead
  have hknown : line.significant.any (·.kind == .unknown) = false := by
    refine List.any_eq_false.mpr fun t ht => ?_
    rw [beq_iff_eq]
    rw [htokens] at ht
    rcases List.mem_cons.mp ht with rfl | ht
    · rw [hkind]
      rcases hk with rfl | rfl <;> nofun
    · exact known_intercalate hs t.spelling (hrest ▸ List.mem_map_of_mem ht)
  have hlabel : ¬isLabel head := by
    rw [isLabel, hkind]
    rcases hk with rfl | rfl <;> decide
  refine ⟨⟨head, arguments rest⟩, ?_, hkind, congrArg Prod.snd hhead, ?_⟩
  · unfold parse
    dsimp only
    rw [hknown, htokens, List.takeWhile_cons_of_neg hlabel, List.dropWhile_cons_of_neg hlabel]
    exact if_pos (hkind ▸ hk)
  · rcases eq_or_ne specs [] with rfl | hne
    · rw [List.map_eq_nil_iff.mp hrest]
      rfl
    · have hrest' : rest ≠ [] := by
        rintro rfl
        exact intercalate_ne_nil hs hne hrest.symm
      rw [arguments_of_ne_nil hrest']
      exact splitCommas_spelled hs hne hrest

end Operands

end Statement

end MipsToolchain
