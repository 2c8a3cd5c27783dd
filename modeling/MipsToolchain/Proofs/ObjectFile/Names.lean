import MipsToolchain.ObjectFile.Reader
import MipsToolchain.ObjectFile.Writer
import MipsToolchain.Proofs.Text.ZeroFree
import Mathlib.Algebra.Group.Nat.Defs

namespace MipsToolchain

namespace ObjectFile.StringTable

theorem offset_append_of_mem {n : Name} {ns : List Name} (h : n ∈ ns) (ms : List Name) :
    offset n (ns ++ ms) = offset n ns := by
  induction ns with
  | nil => cases h
  | cons k ns ih =>
    simp only [List.cons_append, offset]
    by_cases hk : k = n
    · simp [hk]
    · rw [if_neg hk, if_neg hk, ih ((List.mem_cons.mp h).resolve_left (Ne.symm hk))]

theorem offset_append_self (n : Name) (ns : List Name) : offset n (ns ++ [n]) = offset n ns := by
  induction ns with
  | nil => simp [offset]
  | cons k ns ih => simp only [List.cons_append, offset, ih]

theorem drop_offset {n : Name} {ns : List Name} (h : n ∈ ns) :
    ∃ rest, (ns.flatMap encodeName).drop (offset n ns) = encodeName n ++ rest := by
  induction ns with
  | nil => cases h
  | cons k ns ih =>
    rw [List.flatMap_cons, offset]
    by_cases hk : k = n
    · exact ⟨ns.flatMap encodeName, by simp [hk]⟩
    · obtain ⟨rest, hrest⟩ := ih ((List.mem_cons.mp h).resolve_left (Ne.symm hk))
      refine ⟨rest, ?_⟩
      rw [if_neg hk, List.drop_append, List.drop_eq_nil_of_le (Nat.le_add_right _ _),
        List.nil_append, Nat.add_sub_cancel_left, hrest]

def index (t : StringTable) (n : Name) : UInt32 := (offset n t.names).toUInt32

theorem stringAt_index {t : StringTable} {n : Name} (hn : n ∈ t.names) (hz : n.ZeroFree)
    (hlt : t.encode.length < 2 ^ 32) : stringAt t.encode (t.index n) = .ok n := by
  obtain ⟨rest, hrest⟩ := drop_offset hn
  have hlen : (t.encode.drop (offset n t.names)).length ≠ 0 := by
    rw [encode, hrest]
    simp [encodeName]
  rw [List.length_drop] at hlen
  have hindex : (t.index n).toNat = offset n t.names := by
    simp only [index, Nat.toUInt32_eq, UInt32.toNat_ofNat']
    omega
  have hname : (n.bytes ++ 0 :: rest).takeWhile (· ≠ 0) = n.bytes := by
    rw [List.takeWhile_append_of_pos]
    · simp
    · intro b hb
      have hne : b ≠ 0 := by
        rintro rfl
        exact hz hb
      simpa using hne
  have hdrop : t.encode.drop (t.index n).toNat = n.bytes ++ 0 :: rest := by
    rw [hindex, encode, hrest, encodeName, List.append_assoc, List.singleton_append]
  unfold stringAt
  rw [hdrop]
  dsimp only
  rw [if_neg (by simp), if_pos (by simp), hname]

def addAll (t : StringTable) (ns : List Name) : StringTable := ns.foldl (fun t n => (t.add n).2) t

section Growth

variable (t : StringTable) (n : Name)

theorem mem_add : n ∈ (t.add n).2.names := by
  simp only [add]
  split
  · assumption
  · simp

variable {t n}

theorem mem_add_of_mem (h : n ∈ t.names) (k : Name) : n ∈ (t.add k).2.names := by
  simp only [add]
  split
  · exact h
  · exact List.mem_append_left _ h

theorem index_add_of_mem (h : n ∈ t.names) (k : Name) : (t.add k).2.index n = t.index n := by
  simp only [add, index]
  split
  · rfl
  · rw [offset_append_of_mem h]

theorem index_add_self : (t.add n).2.index n = (t.add n).1 := by
  simp only [add, index]
  split
  · rfl
  · rw [offset_append_self]

theorem mem_addAll_of_mem (h : n ∈ t.names) (ns : List Name) : n ∈ (t.addAll ns).names := by
  induction ns generalizing t with
  | nil => exact h
  | cons k ns ih => exact ih (mem_add_of_mem h k)

theorem index_addAll_of_mem (h : n ∈ t.names) (ns : List Name) :
    (t.addAll ns).index n = t.index n := by
  induction ns generalizing t with
  | nil => rfl
  | cons k ns ih =>
    have hrest : ((t.add k).2.addAll ns).index n = (t.add k).2.index n := ih (mem_add_of_mem h k)
    exact hrest.trans (index_add_of_mem h k)

theorem mem_addAll {ns : List Name} (h : n ∈ ns) : n ∈ (t.addAll ns).names := by
  induction ns generalizing t with
  | nil => cases h
  | cons k ns ih =>
    rcases List.mem_cons.mp h with rfl | h
    · exact mem_addAll_of_mem (mem_add t n) ns
    · exact ih h

theorem addAll_cons (t : StringTable) (n : Name) (ns : List Name) :
    t.addAll (n :: ns) = (t.add n).2.addAll ns := rfl

theorem addAll_append (t : StringTable) (ns ms : List Name) :
    t.addAll (ns ++ ms) = (t.addAll ns).addAll ms := List.foldl_append

end Growth

end ObjectFile.StringTable

end MipsToolchain
