import MipsToolchain.Proofs.Effects
import MipsToolchain.Token.LineScan
import MipsToolchain.Token.Literal

namespace MipsToolchain

namespace LineScan

open Lexeme

variable {cs r w : List Char} {c d : Char} {k st n m : Nat} {ls : List Lexeme} {s t u : LineScan}

section Lookups

theorem drop_length_takeWhile (p : Char → Bool) (r : List Char) :
    r.drop (r.takeWhile p).length = r.dropWhile p := by
  induction r with
  | nil => rfl
  | cons c r ih =>
    by_cases hc : p c
    · rw [List.takeWhile_cons_of_pos hc, List.dropWhile_cons_of_pos hc]
      exact ih
    · rw [List.takeWhile_cons_of_neg hc, List.dropWhile_cons_of_neg hc]
      rfl

theorem emit_eq (s : LineScan) (h : cs.drop s.start = c :: (w ++ r)) (shape : LexemeShape)
    (closed : Bool) (next : Nat) :
    emit s cs shape (s.start + 1 + w.length) closed next =
      .ok ⟨none, s.start, next, s.lexemes ++ [⟨shape, c :: w, s.start, closed⟩]⟩ := by
  have hlen := congrArg List.length h
  simp only [List.length_drop, List.length_cons, List.length_append] at hlen
  have hwidth : s.start + 1 + w.length - s.start = (c :: w).length := by
    rw [List.length_cons]
    omega
  rw [emit, if_pos (by omega)]
  simp only [hwidth, h, ← List.cons_append, List.take_left]

end Lookups

inductive Runs (cs : List Char) : Nat → LineScan → LineScan → Prop
  | refl {s : LineScan} : Runs cs 0 s s
  | step {n : Nat} {s t u : LineScan} : s.step cs = .ok t → Runs cs n t u → Runs cs (n + 1) s u

namespace Runs

theorem trans (h : Runs cs m s t) (h' : Runs cs n t u) : Runs cs (m + n) s u := by
  induction h with
  | refl => rwa [Nat.zero_add]
  | step hs _ ih =>
    rw [Nat.succ_add]
    exact .step hs (ih h')

theorem single (h : s.step cs = .ok t) : Runs cs 1 s t := .step h .refl

theorem run_eq (h : Runs cs n s t) (ht : cs.length ≤ t.position) {fuel : Nat} (hn : n ≤ fuel) :
    run cs fuel s = .ok t := by
  induction h generalizing fuel with
  | refl =>
    unfold run
    exact if_neg (Nat.not_lt.mpr ht)
  | @step n s t u hs _ ih =>
    have hposition : s.position < cs.length := by
      obtain ⟨c, hc, -⟩ := except_bind_eq_ok.mp hs
      exact (List.getElem?_eq_some_iff.mp (elementAt_eq_ok.mp hc)).1
    obtain ⟨fuel, rfl⟩ := Nat.exists_eq_add_of_le' (Nat.lt_of_lt_of_le (Nat.succ_pos _) hn)
    rw [run, if_pos hposition]
    exact except_bind_eq_ok.mpr ⟨t, hs, ih ht (Nat.le_of_succ_le_succ hn)⟩

end Runs

section Pieces

/-- The scan takes characters as long as they belong to the piece that it is in, and stops in front
of the line end at the latest. -/
theorem runs_while {p : Char → Bool} {shape : LexemeShape} (hnewline : p '\n' = false)
    (hstep : ∀ k c, elementAt cs k = .ok c → p c = true →
      step cs ⟨some shape, st, k, ls⟩ = .ok ⟨some shape, st, k + 1, ls⟩)
    (h : cs.drop k = r ++ ['\n']) :
    Runs cs (r.takeWhile p).length ⟨some shape, st, k, ls⟩
        ⟨some shape, st, k + (r.takeWhile p).length, ls⟩ ∧
      ∃ d, elementAt cs (k + (r.takeWhile p).length) = .ok d ∧ p d = false := by
  induction r generalizing k with
  | nil => exact ⟨.refl, '\n', elementAt_of_drop h, hnewline⟩
  | cons c r ih =>
    cases hc : p c with
    | false =>
      rw [List.takeWhile_cons_of_neg (by rw [hc]; exact Bool.false_ne_true)]
      exact ⟨.refl, c, elementAt_of_drop h, hc⟩
    | true =>
      obtain ⟨hruns, hstop⟩ := ih (drop_succ_of_drop h)
      have hlen : k + ((r.takeWhile p).length + 1) = k + 1 + (r.takeWhile p).length := by omega
      rw [List.takeWhile_cons_of_pos hc, List.length_cons, hlen]
      exact ⟨.step (hstep k c (elementAt_of_drop h) hc) hruns, hstop⟩

/-- What is left of a line behind a piece. The scan goes on in front of it, or behind the line end
that it starts with, which is the end of all if nothing is left. -/
inductive Continues (rest : List Char) (stop : Nat) : Nat → Prop
  | here : Continues rest stop stop
  | behind : (∀ c ∈ rest.head?, c = '\n') → Continues rest stop (stop + 1)

theorem runs_literal {shape : LexemeShape} {quote : Char} (hquote : quote ≠ '\\' ∧ quote ≠ '\n')
    (hstep : ∀ k c, elementAt cs k = .ok c →
      step cs ⟨some shape, st, k, ls⟩ = stepLiteral cs ⟨some shape, st, k, ls⟩ shape quote c)
    (h : cs.drop k = r ++ ['\n']) :
    ∃ next m, m ≤ (literalExtent quote r).1 + 1 ∧
      Continues (r.drop (literalExtent quote r).1) (k + (literalExtent quote r).1) next ∧
      ∀ t, emit ⟨none, st, 0, ls⟩ cs shape (k + (literalExtent quote r).1)
        (literalExtent quote r).2 next = .ok t → Runs cs m ⟨some shape, st, k, ls⟩ t := by
  -- The cases of the extent are the steps of the scan: two at a backslash, and else one.
  fun_induction literalExtent quote r generalizing k with
  | case1 =>
    refine ⟨k + 1, 1, Nat.le_refl _, .behind nofun, fun t ht => .single ?_⟩
    rw [hstep k '\n' (elementAt_of_drop h), stepLiteral, if_neg (by decide), if_neg hquote.2.symm,
      if_pos rfl]
    exact ht
  | case2 r =>
    have h' := drop_succ_of_drop h
    refine ⟨k + 2, 2, Nat.le_refl _, .behind (by simp), fun t ht => ?_⟩
    refine .step (t := ⟨some shape, st, k + 1, ls⟩) ?_ (.single ?_)
    · rw [hstep k '\\' (elementAt_of_drop h), stepLiteral, if_pos rfl, elementAt_of_drop h']
      rfl
    · rw [hstep (k + 1) '\n' (elementAt_of_drop h'), stepLiteral, if_neg (by decide),
        if_neg hquote.2.symm, if_pos rfl]
      exact ht
  | case3 e r he ih =>
    obtain ⟨next, m, hm, hnext, hruns⟩ := ih (drop_succ_of_drop (drop_succ_of_drop h))
    have hk : k + ((literalExtent quote r).1 + 2) = k + 2 + (literalExtent quote r).1 := by omega
    rw [hk]
    refine ⟨next, m + 1, by omega, hnext, fun t ht => ?_⟩
    refine .step (t := ⟨some shape, st, k + 2, ls⟩) ?_ (hruns t ht)
    rw [hstep k '\\' (elementAt_of_drop h), stepLiteral, if_pos rfl,
      elementAt_of_drop (drop_succ_of_drop h)]
    simp only [bind, Except.bind, if_neg he]
    rfl
  | case4 r hr =>
    refine ⟨k + 1, 1, by omega, .here, fun t ht => .single ?_⟩
    rw [hstep k quote (elementAt_of_drop h), stepLiteral, if_neg hquote.1, if_pos rfl]
    exact ht
  | case5 r hr hne =>
    refine ⟨k + 1, 1, by omega, .behind (by simp), fun t ht => .single ?_⟩
    rw [hstep k '\n' (elementAt_of_drop h), stepLiteral, if_neg (by decide), if_neg hne, if_pos rfl]
    exact ht
  | case6 c r hr hne hnewline ih =>
    obtain ⟨next, m, hm, hnext, hruns⟩ := ih (drop_succ_of_drop h)
    have hk : k + ((literalExtent quote r).1 + 1) = k + 1 + (literalExtent quote r).1 := by omega
    rw [hk]
    refine ⟨next, m + 1, by omega, hnext, fun t ht => ?_⟩
    refine .step (t := ⟨some shape, st, k + 1, ls⟩) ?_ (hruns t ht)
    rw [hstep k c (elementAt_of_drop h), stepLiteral]
    split
    · next hc =>
      -- A backslash with something behind it is one of the first cases, so this is the last one.
      cases r with
      | nil =>
        rw [elementAt_of_drop (drop_succ_of_drop h)]
        rfl
      | cons e r => exact absurd rfl (hr e r hc)
    · rfl

theorem runs_span {p : Char → Bool} {shape : LexemeShape} {n : Nat}
    (hnewline : p '\n' = false)
    (hstep : ∀ i c, elementAt cs i = .ok c → p c = true →
      step cs ⟨some shape, k, i, ls⟩ = .ok ⟨some shape, k, i + 1, ls⟩)
    (hlast : ∀ i c, elementAt cs i = .ok c → p c = false →
      step cs ⟨some shape, k, i, ls⟩ =
        emit ⟨some shape, k, i, ls⟩ cs shape i true (i + n))
    (h : cs.drop k = c :: (r ++ ['\n'])) :
    Runs cs ((r.takeWhile p).length + 1) ⟨some shape, k, k + 1, ls⟩
      ⟨none, k, k + 1 + (r.takeWhile p).length + n,
        ls ++ [⟨shape, c :: r.take (r.takeWhile p).length, k, true⟩]⟩ := by
  obtain ⟨hruns, d, hd, hpd⟩ := runs_while hnewline hstep (drop_succ_of_drop h)
  refine hruns.trans (.single ?_)
  rw [hlast _ d hd hpd, ← List.prefix_iff_eq_take.mp (List.takeWhile_prefix p)]
  refine emit_eq (r := r.dropWhile p ++ ['\n']) ⟨some shape, k, _, ls⟩ ?_ _ _ _
  rw [← List.append_assoc, List.takeWhile_append_dropWhile, h]

theorem literalExtent_le (quote : Char) (r : List Char) : (literalExtent quote r).1 ≤ r.length := by
  fun_induction literalExtent quote r <;> simp only [List.length_cons, List.length_nil] <;> omega

theorem extent_le (c : Char) (r : List Char) : (extent c r).2.1 ≤ r.length := by
  have hspan (p : Char → Bool) : (r.takeWhile p).length ≤ r.length :=
    (List.takeWhile_prefix p).length_le
  unfold extent
  iterate 3
    split
    · exact hspan _
  iterate 2
    split
    · exact literalExtent_le _ _
  split
  · next hpair =>
    obtain ⟨r', rfl⟩ := List.head?_eq_some_iff.mp hpair.2
    exact Nat.succ_le_of_lt (Nat.succ_pos _)
  · exact Nat.zero_le _

/-- From a state, a scan finds a piece that starts with `c` at `k` and has a given extent in what
follows, and is ready for the next piece. -/
def Finds (cs : List Char) (s : LineScan) (k : Nat) (ls : List Lexeme) (c : Char) (r : List Char)
    (e : LexemeShape × Nat × Bool) : Prop :=
  ∃ next m, m ≤ e.2.1 + 2 ∧ Continues (r.drop e.2.1) (k + 1 + e.2.1) next ∧
    Runs cs m s ⟨none, k, next, ls ++ [⟨e.1, c :: r.take e.2.1, k, e.2.2⟩]⟩

theorem finds_span {p : Char → Bool} {shape : LexemeShape} (hnewline : p '\n' = false)
    (hstep : ∀ i d, elementAt cs i = .ok d → step cs ⟨some shape, k, i, ls⟩ =
      if p d then .ok ⟨some shape, k, i + 1, ls⟩
      else emit ⟨some shape, k, i, ls⟩ cs shape i true i)
    (hs : step cs s = .ok ⟨some shape, k, k + 1, ls⟩) (h : cs.drop k = c :: (r ++ ['\n'])) :
    Finds cs s k ls c r (shape, (r.takeWhile p).length, true) := by
  refine ⟨_, _, Nat.le_refl _, .here, .step hs (runs_span (n := 0) hnewline ?_ ?_ h)⟩
  · intro i d hd hp
    exact (hstep i d hd).trans (if_pos hp)
  · intro i d hd hp
    exact (hstep i d hd).trans (if_neg (by rw [hp]; exact Bool.false_ne_true))

theorem finds_comment (hs : step cs s = .ok ⟨some .comment, k, k + 1, ls⟩)
    (h : cs.drop k = c :: (r ++ ['\n'])) :
    Finds cs s k ls c r (.comment, (r.takeWhile (· ≠ '\n')).length, true) := by
  refine ⟨_, _, Nat.le_refl _, .behind ?_, .step hs (runs_span (n := 1) rfl ?_ ?_ h)⟩
  · intro d hd
    rw [drop_length_takeWhile] at hd
    have hhead := List.head?_dropWhile_not (· ≠ '\n') r
    rw [Option.mem_def.mp hd] at hhead
    simpa using hhead
  · intro i d hd hp
    rw [step, hd]
    exact if_neg (by simpa using hp)
  · intro i d hd hp
    rw [step, hd]
    exact if_pos (by simpa using hp)

theorem finds_literal {shape : LexemeShape} {quote : Char} (hquote : quote ≠ '\\' ∧ quote ≠ '\n')
    (hstep : ∀ i d, elementAt cs i = .ok d →
      step cs ⟨some shape, k, i, ls⟩ = stepLiteral cs ⟨some shape, k, i, ls⟩ shape quote d)
    (hs : step cs s = .ok ⟨some shape, k, k + 1, ls⟩) (h : cs.drop k = c :: (r ++ ['\n'])) :
    Finds cs s k ls c r (shape, literalExtent quote r) := by
  obtain ⟨next, m, hm, hnext, hruns⟩ := runs_literal hquote hstep (drop_succ_of_drop h)
  refine ⟨next, m + 1, by dsimp only; omega, hnext, .step hs (hruns _ ?_)⟩
  have hlen := List.length_take_of_le (literalExtent_le quote r)
  have hemit := emit_eq (w := r.take (literalExtent quote r).1)
    (r := r.drop (literalExtent quote r).1 ++ ['\n']) ⟨none, k, 0, ls⟩
    (by rw [← List.append_assoc, List.take_append_drop, h]) shape (literalExtent quote r).2 next
  rwa [hlen] at hemit

theorem finds_punctuation (hs : step cs s = emit ⟨none, k, k, ls⟩ cs .punctuation (k + 1 + n) true
      (k + 1 + n)) (hn : n ≤ r.length) (h : cs.drop k = c :: (r ++ ['\n'])) :
    Finds cs s k ls c r (.punctuation, n, true) := by
  refine ⟨_, 1, by dsimp only; omega, .here, .single ?_⟩
  have hlen := List.length_take_of_le hn
  have hemit := emit_eq (w := r.take n) (r := r.drop n ++ ['\n']) ⟨none, k, k, ls⟩
    (by rw [← List.append_assoc, List.take_append_drop, h]) .punctuation true (k + 1 + n)
  rw [hlen] at hemit
  exact hs.trans hemit

theorem step_begin (st : Nat) (ls : List Lexeme) (h : cs.drop k = c :: r) :
    step cs ⟨none, st, k, ls⟩ = stepBegin cs ⟨none, st, k, ls⟩ c := by
  rw [step, elementAt_of_drop h]
  rfl

theorem finds_piece (st : Nat) (ls : List Lexeme) (hc : c ≠ '\n')
    (h : cs.drop k = c :: (r ++ ['\n'])) :
    Finds cs ⟨none, st, k, ls⟩ k ls c r (extent c r) := by
  have hbegin := step_begin st ls h
  rw [stepBegin, if_neg hc] at hbegin
  rw [extent]
  -- The tests of the extent are those of the scan, in the same order.
  split
  · next hblank =>
    exact finds_span rfl (fun i d hd => by rw [step, hd]; rfl) (hbegin.trans (if_pos hblank)) h
  next hblank =>
  rw [if_neg hblank] at hbegin
  split
  · next hword =>
    have hnewline : isWordChar '\n' = false := by decide
    exact finds_span hnewline (fun i d hd => by rw [step, hd]; rfl) (hbegin.trans (if_pos hword)) h
  next hword =>
  rw [if_neg hword] at hbegin
  split
  · next hcomment => exact finds_comment (hbegin.trans (if_pos hcomment)) h
  next hcomment =>
  rw [if_neg hcomment] at hbegin
  split
  · next hstring =>
    refine finds_literal (by decide) (fun i d hd => ?_) (hbegin.trans (if_pos hstring)) h
    rw [step, hd]
    rfl
  next hstring =>
  rw [if_neg hstring] at hbegin
  split
  · next hchar =>
    refine finds_literal (by decide) (fun i d hd => ?_) (hbegin.trans (if_pos hchar)) h
    rw [step, hd]
    rfl
  next hchar =>
  rw [if_neg hchar] at hbegin
  split
  · next hpair =>
    obtain ⟨hangle, hsecond⟩ := hpair
    obtain ⟨r, rfl⟩ := List.head?_eq_some_iff.mp hsecond
    refine finds_punctuation (hbegin.trans ?_) (Nat.succ_le_of_lt (Nat.succ_pos _)) h
    rw [if_pos hangle, elementAt_of_drop (drop_succ_of_drop h)]
    exact if_pos rfl
  · next hpair =>
    refine finds_punctuation (hbegin.trans ?_) (Nat.zero_le _) h
    split
    -- The character behind a single angle bracket is another one, be it the line end.
    · next hangle =>
      obtain ⟨d, hd, hne⟩ : ∃ d, elementAt cs (k + 1) = .ok d ∧ d ≠ c := by
        cases r with
        | nil => exact ⟨'\n', elementAt_of_drop (drop_succ_of_drop h), Ne.symm hc⟩
        | cons d r =>
          have hdrop := drop_succ_of_drop h
          exact ⟨d, elementAt_of_drop hdrop, fun hdc => hpair ⟨hangle, congrArg some hdc⟩⟩
      rw [hd]
      exact if_neg hne
    · rfl

end Pieces

section Lines

/-- From a state, a scan comes to the end of the line, with the pieces of a text that starts at `k`
behind those that it has. No character takes more than two steps. -/
def Scans (cs : List Char) (s : LineScan) (k : Nat) (text : List Char) (ls : List Lexeme) : Prop :=
  ∃ m t, m ≤ 2 * (text.length + 1) ∧ cs.length ≤ t.position ∧ t.lexemes = ls ++ scanFrom k text ∧
    Runs cs m s t

theorem length_eq_of_drop (h : cs.drop k = r ++ ['\n']) : cs.length = k + r.length + 1 := by
  have hlength := congrArg List.length h
  rw [List.length_drop, List.length_append, List.length_singleton] at hlength
  omega

theorem Scans.nil (h : cs.drop k = ['\n']) : Scans cs ⟨none, st, k, ls⟩ k [] ls := by
  refine ⟨1, ⟨none, k, k + 1, ls⟩, by decide, ?_, by rw [scanFrom, List.append_nil], .single ?_⟩
  · exact Nat.le_of_eq (length_eq_of_drop (r := []) h)
  · rw [step_begin st ls h, stepBegin, if_pos rfl]
    rfl

theorem Scans.newline (h : Scans cs s (k + 1) r ls) (hs : m ≤ 1) (hruns : Runs cs m t s) :
    Scans cs t k ('\n' :: r) ls := by
  obtain ⟨n, u, hn, hend, hlexemes, hruns'⟩ := h
  refine ⟨m + n, u, ?_, hend, ?_, hruns.trans hruns'⟩
  · rw [List.length_cons]
    omega
  · rw [hlexemes, scanFrom, if_pos rfl]

theorem Scans.continues {rest : List Char} {stop next : Nat} (hnext : Continues rest stop next)
    (h : cs.drop stop = rest ++ ['\n'])
    (ih : ∀ text k, text.length ≤ rest.length → cs.drop k = text ++ ['\n'] →
      Scans cs ⟨none, st, k, ls⟩ k text ls) :
    Scans cs ⟨none, st, next, ls⟩ stop rest ls := by
  cases hnext with
  | here => exact ih rest stop (Nat.le_refl _) h
  | behind hhead =>
    cases rest with
    | nil =>
      refine ⟨0, _, Nat.zero_le _, ?_, by rw [scanFrom, List.append_nil], .refl⟩
      exact Nat.le_of_eq (length_eq_of_drop h)
    | cons d r =>
      obtain rfl := hhead d rfl
      exact (ih r (stop + 1) (Nat.le_succ _) (drop_succ_of_drop h)).newline (Nat.zero_le _) .refl

theorem scans_text (text : List Char) (h : cs.drop k = text ++ ['\n']) :
    Scans cs ⟨none, st, k, ls⟩ k text ls := by
  induction hlen : text.length using Nat.strongRecOn generalizing text k st ls with
  | ind len ih =>
    subst hlen
    cases text with
    | nil => exact .nil h
    | cons c r =>
      by_cases hc : c = '\n'
      · subst hc
        have hnext : Scans cs ⟨none, k, k + 1, ls⟩ (k + 1) r ls :=
          ih r.length (Nat.lt_succ_self _) r (drop_succ_of_drop h) rfl
        refine hnext.newline (Nat.le_refl _) (.single ?_)
        rw [step_begin st ls h, stepBegin, if_pos rfl]
        rfl
      · obtain ⟨next, m, hm, hnext, hruns⟩ := finds_piece st ls hc h
        have hle := extent_le c r
        have htail : cs.drop (k + 1) = r ++ ['\n'] := drop_succ_of_drop h
        have hrest : cs.drop (k + 1 + (extent c r).2.1) = r.drop (extent c r).2.1 ++ ['\n'] := by
          rw [← List.drop_drop, htail, List.drop_append_of_le_length hle]
        obtain ⟨n, u, hn, hend, hlexemes, hruns'⟩ := Scans.continues hnext hrest
          fun text i htext hi => ih text.length
            (by rw [List.length_drop] at htext; rw [List.length_cons]; omega) text hi rfl
        refine ⟨m + n, u, ?_, hend, ?_, hruns.trans hruns'⟩
        · rw [List.length_drop] at hn
          rw [List.length_cons]
          omega
        · rw [hlexemes, scanFrom, if_neg hc, List.append_assoc, List.singleton_append]

/-- Scanning a line by position never looks up a character that is not there, comes to an end, and
finds the pieces of the line. -/
theorem scan_eq (text : String) : scan text = .ok (Lexeme.scan text) := by
  obtain ⟨m, t, hm, hend, hlexemes, hruns⟩ : Scans (text.toList ++ ['\n']) {} 0 text.toList [] :=
    scans_text text.toList rfl
  have hrun : run (text.toList ++ ['\n']) (2 * (text.toList ++ ['\n']).length) {} = .ok t :=
    hruns.run_eq hend (by rwa [List.length_append])
  exact except_bind_eq_ok.mpr ⟨t, hrun, congrArg Except.ok hlexemes⟩

end Lines

end LineScan

namespace Literal

theorem unknown_resolve_le (position : Nat) (cs : List Char) :
    ∀ k ∈ (resolve position cs).2, k + 2 ≤ position + cs.length := by
  fun_induction resolve position cs with
  | case1 => nofun
  | case2 position e r text unknown hrest c hc ih =>
    intro k hk
    have hle := ih k (by rw [hrest]; exact hk)
    simp only [List.length_cons]
    omega
  | case3 position e r text unknown hrest hc ih =>
    intro k hk
    simp only [List.length_cons]
    rcases List.mem_cons.mp hk with rfl | hk
    · omega
    · have hle := ih k (by rw [hrest]; exact hk)
      omega
  | case4 position c r hc text unknown hrest ih =>
    intro k hk
    have hle := ih k (by rw [hrest]; exact hk)
    simp only [List.length_cons]
    omega

theorem length_body_le (q : Char) (r : List Char) : (body (q :: r)).length ≤ r.length := by
  rw [body]
  split
  · rw [List.length_dropLast]
    exact Nat.sub_le _ _
  · exact Nat.le_refl _

/-- An unknown escape lies within its literal, both the backslash and the character behind it. -/
theorem unknown_unquote_le (literal : String) :
    ∀ k ∈ (unquote literal).2, k + 2 ≤ literal.toList.length := by
  intro k hk
  have hle := unknown_resolve_le 1 (body literal.toList) k hk
  cases hcs : literal.toList with
  | nil =>
    rw [unquote, hcs] at hk
    cases hk
  | cons q r =>
    have hbody := length_body_le q r
    rw [hcs] at hle
    rw [List.length_cons]
    omega

end Literal

end MipsToolchain
