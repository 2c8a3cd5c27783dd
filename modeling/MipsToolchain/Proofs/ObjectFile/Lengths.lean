import MipsToolchain.ObjectFile.Reader
import MipsToolchain.Proofs.Effects
import Mathlib.Algebra.GroupWithZero.Nat

namespace MipsToolchain.ObjectFile

section Takes

variable {α β : Type} {read : List UInt8 → Except ReadError (α × List UInt8)} {k j : Nat}

/-- How many bytes a reader takes. Without as many it fails, and in no other case. -/
structure Takes (read : List UInt8 → Except ReadError (α × List UInt8)) (k : Nat) : Prop where
  enough : ∀ data, k ≤ data.length → ∃ a, read data = .ok (a, data.drop k)
  short : ∀ data, data.length < k → read data = .error .malformed

namespace Takes

theorem nothing (a : α) : Takes (fun data => .ok (a, data)) 0 where
  enough _ _ := ⟨a, rfl⟩
  short _ h := absurd h (Nat.not_lt_zero _)

theorem bind (h : Takes read k) {next : α → List UInt8 → Except ReadError (β × List UInt8)}
    (hnext : ∀ a, Takes (next a) j) :
    Takes (fun data => read data >>= fun p => next p.1 p.2) (k + j) where
  enough data hlen := by
    obtain ⟨a, ha⟩ := h.enough data (by omega)
    obtain ⟨b, hb⟩ := (hnext a).enough (data.drop k) (by rw [List.length_drop]; omega)
    refine ⟨b, ?_⟩
    rw [List.drop_drop] at hb
    rw [ha]
    exact hb
  short data hlen := by
    by_cases hk : k ≤ data.length
    · obtain ⟨a, ha⟩ := h.enough data hk
      rw [ha]
      exact (hnext a).short _ (by rw [List.length_drop]; omega)
    · rw [h.short data (by omega)]
      rfl

theorem length (h : Takes read k) {data rest : List UInt8} {a : α}
    (hread : read data = .ok (a, rest)) : data.length = k + rest.length := by
  by_cases hk : k ≤ data.length
  · obtain ⟨b, hb⟩ := h.enough data hk
    cases hb.symm.trans hread
    rw [List.length_drop]
    omega
  · rw [h.short data (by omega)] at hread
    cases hread

end Takes

theorem takes_split (n : Nat) : Takes (split n) n where
  enough data h := by
    refine ⟨data.take n, ?_⟩
    rw [split, List.splitAt_eq]
    exact if_pos (List.length_take_of_le h)
  short data h := by
    rw [split, List.splitAt_eq]
    refine if_neg fun hlen => ?_
    rw [List.length_take] at hlen
    omega

theorem takes_readTable (size : Nat) (decode : List UInt8 → α) (n : Nat) :
    Takes (readTable size decode n) (n * size) := by
  induction n with
  | zero =>
    rw [Nat.zero_mul]
    exact .nothing []
  | succ n ih =>
    rw [Nat.succ_mul, Nat.add_comm (n * size)]
    exact (takes_split size).bind fun entry =>
      ih.bind (j := 0) fun entries => .nothing (decode entry :: entries)

def storedSize (p : StandardSection × UInt32) : Nat := if hasContents p.1 then p.2.toNat else 0

theorem takes_readSections (ss : List (StandardSection × UInt32)) :
    Takes (readSections ss) (ss.map storedSize).sum := by
  induction ss with
  | nil => exact .nothing []
  | cons p ss ih =>
    obtain ⟨s, size⟩ := p
    rw [List.map_cons, List.sum_cons]
    by_cases hzero : size = 0
    · have hskip : readSections ((s, size) :: ss) = readSections ss := by
        funext data
        rw [readSections, if_pos hzero]
      have hnone : storedSize (s, size) = 0 := by
        rw [storedSize, hzero]
        split <;> rfl
      rw [hskip, hnone, Nat.zero_add]
      exact ih
    · have htake : readSections ((s, size) :: ss) = fun data =>
          split (storedSize (s, size)) data >>= fun p =>
            readSections ss p.2 >>= fun q => .ok ((s, size.toNat, p.1) :: q.1, q.2) := by
        funext data
        rw [readSections, if_neg hzero]
        rfl
      rw [htake]
      exact (takes_split _).bind fun bytes => ih.bind (j := 0) fun others =>
        .nothing ((s, size.toNat, bytes) :: others)

end Takes

section Lengths

def Header.bodySize (h : Header) : Nat :=
  ((StandardSection.all.zip h.sizes).map storedSize).sum +
    (h.relocations.toNat * RelocationEntry.size + (h.references.toNat * SymbolEntry.size +
      (h.definitions.toNat * SymbolEntry.size + h.strings.toNat)))

def takeParts (h : Header) (data : List UInt8) : Except ReadError (Parts × List UInt8) := do
  let (sections, data) ← readSections (StandardSection.all.zip h.sizes) data
  let (relocations, data) ←
    readTable RelocationEntry.size RelocationEntry.decode h.relocations.toNat data
  let (references, data) ← readTable SymbolEntry.size SymbolEntry.decode h.references.toNat data
  let (definitions, data) ← readTable SymbolEntry.size SymbolEntry.decode h.definitions.toNat data
  let (strings, data) ← split h.strings.toNat data
  pure (⟨sections, relocations, references, definitions, strings⟩, data)

theorem readParts_eq (h : Header) (data : List UInt8) : readParts h data =
    takeParts h data >>= fun p => if p.2.isEmpty then pure p.1 else throw .trailingData := by
  simp only [readParts, takeParts, bind_assoc, pure_bind]

theorem takes_takeParts (h : Header) : Takes (takeParts h) h.bodySize :=
  (takes_readSections _).bind fun sections =>
    (takes_readTable _ RelocationEntry.decode _).bind fun relocations =>
      (takes_readTable _ SymbolEntry.decode _).bind fun references =>
        (takes_readTable _ SymbolEntry.decode _).bind fun definitions =>
          (takes_split h.strings.toNat).bind (j := 0) fun strings => .nothing
            (⟨sections, relocations, references, definitions, strings⟩ : Parts)

theorem length_of_readParts {h : Header} {data : List UInt8} {p : Parts}
    (hp : readParts h data = .ok p) : data.length = h.bodySize := by
  rw [readParts_eq] at hp
  obtain ⟨⟨parts, rest⟩, hparts, hp⟩ := except_bind_eq_ok.mp hp
  rw [(takes_takeParts h).length hparts]
  dsimp only at hp
  split at hp
  · next hempty => rw [List.isEmpty_iff.mp hempty, List.length_nil, Nat.add_zero]
  · cases hp

theorem readParts_short {h : Header} {data : List UInt8} (hlen : data.length < h.bodySize) :
    readParts h data = .error .malformed := by
  rw [readParts_eq, (takes_takeParts h).short data hlen]
  rfl

theorem readParts_long {h : Header} {data : List UInt8} (hlen : h.bodySize < data.length) :
    readParts h data = .error .trailingData := by
  obtain ⟨p, hp⟩ := (takes_takeParts h).enough data (by omega)
  have hrest : ¬ (data.drop h.bodySize).isEmpty := by
    rw [List.isEmpty_iff, List.drop_eq_nil_iff]
    omega
  rw [readParts_eq, hp]
  exact if_neg hrest

theorem length_words32 : ∀ bs : List UInt8, (words32 bs).length = bs.length / 4
  | a :: b :: c :: d :: r => by
    rw [words32, List.length_cons, length_words32 r]
    simp only [List.length_cons]
    omega
  | [] | [_] | [_, _] | [_, _, _] => by simp [words32]

theorem readHeader_short {data : List UInt8} (h : data.length < headerSize) :
    readHeader data = .error .truncatedHeader := by
  rw [readHeader, List.splitAt_eq]
  exact if_pos (Nat.lt_of_le_of_lt (List.length_take_le' _ _) h)

theorem readHeader_eq_ok {data rest : List UInt8} {h : Header}
    (hd : readHeader data = .ok (h, rest)) : headerSize ≤ data.length ∧
      rest = data.drop headerSize ∧ h.sizes.length = 6 ∧
      ∀ other : List UInt8, other.take headerSize = data.take headerSize →
        readHeader other = .ok (h, other.drop headerSize) := by
  simp only [readHeader, List.splitAt_eq] at hd ⊢
  split at hd
  · cases hd
  · next hlen =>
    split at hd
    · cases hd
    · next hmagic =>
      split at hd
      · cases hd
      · next hversion =>
        have hfull : (data.take headerSize).length = headerSize := by
          rw [List.length_take] at hlen ⊢
          omega
        cases hd
        refine ⟨?_, rfl, ?_, fun other hsame => ?_⟩
        · rw [List.length_take] at hlen
          omega
        · rw [List.length_take, List.length_drop, length_words32, List.length_drop, hfull]
          decide
        · rw [hsame, if_neg hlen, if_neg hmagic, if_neg hversion]

end Lengths

end MipsToolchain.ObjectFile
