import MipsToolchain.Assembly.Directive
import MipsToolchain.Proofs.Text.ZeroFree
import MipsToolchain.Proofs.Token.Spelling

namespace MipsToolchain

/-- What is known of every token: it has a text, which as a name has no zero byte. -/
structure Token.Readable (t : Token) : Prop where
  nonempty : t.text ≠ ""
  zeroFree : t.kind = .identifier ∨ t.kind = .label → (RawText.ofString t.text).ZeroFree

namespace Environment

def HasTexts (b : StatementBody) : Prop := ∀ arg ∈ b.args, ∀ t ∈ arg, t.Readable

theorem isEmpty_ofString {s : String} (h : s ≠ "") : (RawText.ofString s).isEmpty = false := by
  cases hc : s.toList with
  | nil => exact absurd (String.toList_eq_nil_iff.mp hc) h
  | cons c cs =>
    have hlen := String.length_utf8EncodeChar c
    have hpos := c.utf8Size_pos
    have hne : String.utf8EncodeChar c ≠ [] := by
      intro hnil
      rw [hnil, List.length_nil] at hlen
      omega
    simp [RawText.isEmpty, RawText.ofString, hc, hne]

theorem nameArgument_eq_some {b : StatementBody} {arg : List Token} {t : Token}
    (h : (b.nameArgument arg).value = some t) : arg = [t] ∧ t.kind = .identifier := by
  unfold StatementBody.nameArgument at h
  split at h
  · split at h
    · next hk =>
      cases h
      exact ⟨rfl, hk⟩
    · cases h
  · cases h

theorem readable_nameArgument {b : StatementBody} {arg : List Token} (ha : ∀ t ∈ arg, t.Readable)
    {t : Token} (h : (b.nameArgument arg).value = some t) :
    (RawText.ofString t.text).isEmpty = false ∧ (RawText.ofString t.text).ZeroFree := by
  obtain ⟨rfl, hk⟩ := nameArgument_eq_some h
  have ht := ha t (List.mem_singleton_self t)
  exact ⟨isEmpty_ofString ht.nonempty, ht.zeroFree (.inl hk)⟩

theorem HasTexts.argument {b : StatementBody} (hb : HasTexts b) {k : Nat} :
    (liftM (b.argument k) : Guarded (List Token)).Ensures fun arg => ∀ t ∈ arg, t.Readable :=
  .ofExcept fun arg h => hb arg (List.mem_of_getElem? (StatementBody.argument_eq_ok.mp h))

end Environment

namespace Lexeme

theorem text_ne_nil_of_mem_scanFrom {column : Nat} {text : List Char} {l : Lexeme}
    (h : l ∈ scanFrom column text) : l.text ≠ [] := by
  fun_induction scanFrom column text with
  | case1 => cases h
  | case2 column r ih => exact ih h
  | case3 column c r hc shape n closed he ih =>
    rcases List.mem_cons.mp h with rfl | h
    · simp
    · exact ih h

theorem wordChar_of_mem_scanFrom {column : Nat} {text : List Char} {l : Lexeme}
    (h : l ∈ scanFrom column text) (hs : l.shape = .word) : ∀ c ∈ l.text, isWordChar c := by
  fun_induction scanFrom column text with
  | case1 => cases h
  | case2 column r ih => exact ih h
  | case3 column c r hc shape n closed he ih =>
    rcases List.mem_cons.mp h with rfl | h
    -- Of the tests for the first character, only that for words gives this shape.
    · unfold extent at he
      dsimp only at hs
      subst hs
      by_cases hblank : isBlank c
      · rw [if_pos hblank] at he
        cases he
      · rw [if_neg hblank] at he
        by_cases hword : isWordChar c
        · rw [if_pos hword] at he
          cases he
          intro d hd
          rcases List.mem_cons.mp hd with rfl | hd
          · exact hword
          · have hprefix := List.prefix_iff_eq_take.mp (List.takeWhile_prefix isWordChar (l := r))
            rw [← hprefix] at hd
            exact List.all_eq_true.mp List.all_takeWhile d hd
        · rw [if_neg hword] at he
          split at he
          · cases he
          · split at he
            · cases he
            · split at he
              · cases he
              · split at he <;> cases he
    · exact ih h

theorem shape_of_kind {l : Lexeme} {loc : Source.Location} {started colon : Bool}
    (h : (l.kind loc started colon).value = .identifier ∨
      (l.kind loc started colon).value = .label) : l.shape = .word := by
  unfold kind at h
  cases hs : l.shape with
  | word => rfl
  | punctuation =>
    rw [hs] at h
    dsimp only at h
    unfold punctuationKind at h
    repeat' split at h
    all_goals simp only [Reported.value_bind, Reported.value_pure] at h
    all_goals rcases h with h | h <;> cases h
  | _ =>
    rw [hs] at h
    simp only [Reported.value_bind, Reported.value_pure] at h
    rcases h with h | h <;> cases h

theorem text_mem_classify {file : String} {number : Int} {started : Bool} {ls : List Lexeme}
    {t : Token} (h : t ∈ (classify file number started ls).value) :
    ∃ l ∈ ls, t.text = l.string ∧ (t.kind = .identifier ∨ t.kind = .label → l.shape = .word) := by
  obtain ⟨l, hl, loc, started, colon, rfl⟩ := mem_classify h
  exact ⟨l, hl, rfl, shape_of_kind⟩

end Lexeme

theorem readable_of_mem_tokenizeLine {file : String} {number : Int} {text : String}
    {t : Token} (h : t ∈ (tokenizeLine file number text).value.tokens) : t.Readable := by
  obtain ⟨l, hl, ht, hshape⟩ := Lexeme.text_mem_classify h
  constructor
  · have hne := Lexeme.text_ne_nil_of_mem_scanFrom hl
    rw [ht, Lexeme.string]
    intro hnil
    exact hne (String.ofList_eq_empty_iff.mp hnil)
  · intro hk
    have hchars := Lexeme.wordChar_of_mem_scanFrom hl (hshape hk)
    refine RawText.zeroFree_ofString fun hzero => ?_
    rw [ht, Lexeme.string, String.toList_ofList] at hzero
    exact absurd (hchars _ hzero) (by decide)

namespace Statement

theorem mem_of_mem_splitCommas {ts arg : List Token} {t : Token} (ha : arg ∈ splitCommas ts)
    (ht : t ∈ arg) : t ∈ ts := by
  fun_induction splitCommas ts generalizing arg with
  | case1 =>
    rw [List.mem_singleton.mp ha] at ht
    cases ht
  | case2 s ts hk ih =>
    rcases List.mem_cons.mp ha with rfl | ha
    · cases ht
    · exact List.mem_cons_of_mem _ (ih ha ht)
  | case3 s ts hk heq ih =>
    rw [List.mem_singleton.mp ha] at ht
    rw [List.mem_singleton.mp ht]
    exact List.mem_cons_self ..
  | case4 s ts hk g gs heq ih =>
    rcases List.mem_cons.mp ha with rfl | ha
    · rcases List.mem_cons.mp ht with rfl | ht
      · exact List.mem_cons_self ..
      · exact List.mem_cons_of_mem _ (ih (by simp [heq]) ht)
    · exact List.mem_cons_of_mem _ (ih (by simp [heq, ha]) ht)

theorem hasTexts_parse {line : TokenLine} {s : Statement} {ok : Bool} {b : StatementBody}
    (h : (parse line).value = (s, ok)) (hs : s.body = some b)
    (ht : ∀ t ∈ line.tokens, t.Readable) : Environment.HasTexts b := by
  unfold parse at h
  dsimp only at h
  split at h
  · cases h
    cases hs
  · split at h
    · cases h
      cases hs
    · next head rest htok =>
      split at h
      · cases h
        cases hs
        intro arg ha t hmem
        have hrest : t ∈ rest := by
          cases hr : rest with
          | nil =>
            rw [hr] at ha
            cases ha
          | cons x xs =>
            rw [hr] at ha
            exact mem_of_mem_splitCommas ha hmem
        have hdrop : t ∈ line.significant.dropWhile isLabel := by
          rw [htok]
          exact List.mem_cons_of_mem _ hrest
        have hsig : t ∈ line.significant := List.IsSuffix.mem hdrop (List.dropWhile_suffix _)
        exact ht t (List.mem_filter.mp hsig).1
      · cases h
        cases hs

theorem zeroFree_labels {line : TokenLine} {s : Statement} {ok : Bool}
    (h : (parse line).value = (s, ok)) (ht : ∀ t ∈ line.tokens, t.Readable) :
    ∀ t ∈ s.labels, (RawText.ofString t.text).ZeroFree := by
  have hlabels : ∀ t ∈ line.significant.takeWhile isLabel,
      (RawText.ofString t.text).ZeroFree := by
    intro t hmem
    have hsig := (List.takeWhile_prefix isLabel).mem hmem
    have hk := List.all_eq_true.mp List.all_takeWhile t hmem
    exact (ht t (List.mem_filter.mp hsig).1).zeroFree (.inr (by simpa [isLabel] using hk))
  unfold parse at h
  dsimp only at h
  split at h
  · cases h
    simp
  · split at h
    · cases h
      exact hlabels
    · split at h
      · cases h
        exact hlabels
      · cases h
        exact hlabels

end Statement

end MipsToolchain
