import Mathlib.Data.List.Forall2
import MipsToolchain.Proofs.Assembly.Texts
import MipsToolchain.Proofs.Quiet

namespace MipsToolchain

open Diagnostic

/-- Whether a diagnostic is about a piece of a line that is not a token of any kind. -/
def Diagnostic.isOffence (d : Diagnostic) : Bool :=
  [Problem.malformedNumber, .unexpectedCharacter].any fun p =>
    d.code = ⟨p.entry.provider, p.entry.number⟩

structure Token.Contains (t : Token) (loc : Source.Location) : Prop where
  file : loc.file = t.location.file
  line : loc.line = t.location.line
  start : t.location.column ≤ loc.column
  stop : loc.column < t.location.column + t.text.length

/-- The offences among some diagnostics are about the unknown ones among some tokens, one inside
each of them and in their order. -/
def Offends (ts : List Token) (ds : List Diagnostic) : Prop :=
  List.Forall₂ (fun t d => t.Contains d.location) (ts.filter (·.kind = .unknown))
    (ds.filter isOffence)

namespace Offends

variable {ts us : List Token} {ds es : List Diagnostic} {t : Token} {d : Diagnostic}

theorem nil : Offends [] [] := List.Forall₂.nil

theorem append (h : Offends ts ds) (h' : Offends us es) : Offends (ts ++ us) (ds ++ es) := by
  unfold Offends
  rw [List.filter_append, List.filter_append]
  exact List.rel_append h h'

theorem known (ht : t.kind ≠ .unknown) (hds : ∀ d ∈ ds, d.isOffence = false) :
    Offends [t] ds := by
  have hnone : ds.filter isOffence = [] := List.filter_eq_nil_iff.mpr fun d hd => by
    rw [hds d hd]
    exact Bool.false_ne_true
  unfold Offends
  rw [List.filter_cons_of_neg (by simpa using ht), hnone]
  exact .nil

theorem unknown (ht : t.kind = .unknown) (hd : d.isOffence) (h : t.Contains d.location) :
    Offends [t] [d] := by
  unfold Offends
  rw [List.filter_cons_of_pos (by simpa using ht), List.filter_cons_of_pos hd]
  exact .cons h .nil

theorem exists_iff (h : Offends ts ds) :
    (∃ t ∈ ts, t.kind = .unknown) ↔ ∃ d ∈ ds, d.isOffence := by
  have hlen := List.Forall₂.length_eq h
  have htokens : (∃ t ∈ ts, t.kind = .unknown) ↔
      0 < (ts.filter (·.kind = .unknown)).length := by
    simp [List.length_pos_iff_exists_mem]
  have hoffences : (∃ d ∈ ds, d.isOffence) ↔ 0 < (ds.filter isOffence).length := by
    simp [List.length_pos_iff_exists_mem]
  rw [htokens, hoffences, hlen]

end Offends

namespace Lexeme

variable (l : Lexeme) (loc : Source.Location)

theorem contains_shift {n : Nat} (k : TokenKind) (h : n < l.text.length) :
    Token.Contains ⟨l.string, k, loc⟩ (loc.shift n) where
  file := rfl
  line := rfl
  start := by
    dsimp only [Source.Location.shift]
    omega
  stop := by
    have hlen : l.string.length = l.text.length := String.length_ofList
    dsimp only [Source.Location.shift]
    omega

theorem contains_start (k : TokenKind) (h : l.text ≠ []) :
    Token.Contains ⟨l.string, k, loc⟩ loc := by
  simpa [Source.Location.shift] using l.contains_shift loc k (List.length_pos_iff.mpr h)

/-- A word that is not an identifier has a first character that shows it, at the latest its last
one. -/
theorem offends_reportOffender (h : Literal.isIdentifier l.string = false) (hne : l.text ≠ []) :
    Offends [⟨l.string, .unknown, loc⟩] (l.reportOffender loc).diagnostics := by
  have hpos := List.length_pos_iff.mpr hne
  unfold reportOffender
  dsimp only
  split
  · next hnone =>
    have hlast := List.find?_eq_none.mp hnone (l.text.length - 1) (List.mem_range.mpr (by omega))
    rw [Nat.sub_add_cancel hpos, List.take_length] at hlast
    exact absurd (by simpa [string] using h) hlast
  · next k hk =>
    have hlt := List.mem_range.mp (List.mem_of_find?_eq_some hk)
    exact .unknown rfl rfl (l.contains_shift loc .unknown hlt)

theorem offends_wordKind (started colon : Bool) (hne : l.text ≠ []) :
    Offends [⟨l.string, (l.wordKind loc started colon).value, loc⟩]
      (l.wordKind loc started colon).diagnostics := by
  unfold wordKind
  dsimp only
  split
  · exact .known nofun nofun
  · split
    · split
      · exact .known nofun nofun
      · exact .unknown rfl rfl (l.contains_start loc .unknown hne)
    · split
      · next hword =>
        rw [Reported.diagnostics_bind, Reported.diagnostics_pure, List.append_nil]
        exact l.offends_reportOffender loc (by simpa using hword) hne
      · split
        · exact .known nofun nofun
        · split
          · exact .known nofun nofun
          · split <;> exact .known nofun nofun

theorem offends_punctuationKind (hne : l.text ≠ []) :
    Offends [⟨l.string, (l.punctuationKind loc).value, loc⟩]
      (l.punctuationKind loc).diagnostics := by
  unfold punctuationKind
  split
  · exact .known nofun nofun
  · split
    · exact .known nofun nofun
    · split
      · exact .known nofun nofun
      · split
        · exact .known nofun nofun
        · exact .unknown rfl rfl (l.contains_start loc .unknown hne)

/-- What is wrong within a literal does not make it an unknown token. -/
theorem checkLiteral_quiet : (l.checkLiteral loc).Quiet isOffence fun _ => True := by
  have hescapes : ∀ ks : List Nat, (ks.forM fun k => do
      let shown := (l.text.drop k).take 2
      let code := (shown.getLast?.getD ' ').toNat
      report .invalidEscape (loc.shift k) [String.ofList shown] [.int code]).Quiet isOffence
        fun _ => True := fun ks => .forM fun k => .ofReport rfl
  unfold checkLiteral
  extract_lets rest
  have hrest : (rest ()).Quiet isOffence fun _ => True := by
    refine .skip (hescapes _) fun _ => ?_
    split
    · exact .ofReport rfl
    · exact .pure _
  split
  · exact hrest
  · refine .skip ?_ fun _ => hrest
    split <;> exact .ofReport rfl

theorem offends_kind (started colon : Bool) (hne : l.text ≠ []) :
    Offends [⟨l.string, (l.kind loc started colon).value, loc⟩]
      (l.kind loc started colon).diagnostics := by
  have hliteral (k : TokenKind) (hk : k ≠ .unknown) : Offends [⟨l.string, k, loc⟩]
      (l.checkLiteral loc >>= fun _ => pure k).diagnostics := by
    rw [Reported.diagnostics_bind, Reported.diagnostics_pure, List.append_nil]
    exact .known hk (l.checkLiteral_quiet loc trivial)
  unfold kind
  cases l.shape with
  | whitespace => exact .known nofun nofun
  | comment => exact .known nofun nofun
  | string => exact hliteral .string nofun
  | char => exact hliteral .char nofun
  | punctuation => exact l.offends_punctuationKind loc hne
  | word => exact l.offends_wordKind loc started colon hne

/-- The colon that a label takes along is a piece without a token, and is not reported. -/
theorem offends_classify (file : String) (number : Int) (started : Bool) {ls : List Lexeme}
    (h : ∀ l ∈ ls, l.text ≠ []) :
    Offends (classify file number started ls).value
      (classify file number started ls).diagnostics := by
  fun_induction classify file number started ls with
  | case1 => exact .nil
  | case2 started l rest loc colon ih =>
    obtain ⟨hl, hrest⟩ := List.forall_mem_cons.mp h
    simp only [Reported.value_bind, Reported.diagnostics_bind, Reported.value_pure,
      Reported.diagnostics_pure, List.append_nil]
    refine (l.offends_kind loc started colon hl).append (ih _ fun l' hl' => ?_)
    split at hl'
    · exact hrest l' (List.mem_of_mem_tail hl')
    · exact hrest l' hl'

end Lexeme

theorem offends_tokenizeLine (file : String) (number : Int) (text : String) :
    Offends (tokenizeLine file number text).value.tokens
      (tokenizeLine file number text).diagnostics := by
  rw [tokenizeLine, Reported.diagnostics_bind, Reported.diagnostics_pure, List.append_nil]
  exact Lexeme.offends_classify file number false fun _ => Lexeme.text_ne_nil_of_mem_scanFrom

end MipsToolchain
