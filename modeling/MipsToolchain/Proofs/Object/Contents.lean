import MipsToolchain.Object.Relocate
import MipsToolchain.Proofs.Word.Bits

namespace MipsToolchain

namespace Section

def contents (s : Section) : List UInt8 := s.bytes.data.toList

@[simp]
theorem length_contents (s : Section) : s.contents.length = s.length := rfl

@[simp]
theorem contents_append (s : Section) (bytes : ByteArray) :
    (s.append bytes).contents = s.contents ++ bytes.data.toList := by
  simp [contents, append]

theorem contents_getElem? {s : Section} {k : Nat} (h : k < s.length) :
    s.contents[k]? = some (s.bytes.get! k) := by
  have hk : k < s.bytes.data.size := h
  rw [contents, Array.getElem?_toList, Array.getElem?_eq_getElem hk, ByteArray.get!]
  exact congrArg some (getElem!_pos s.bytes.data k hk).symm

end Section

namespace Address

def offset (a : Address) : Nat := a.value.toInt.toNat

def inSection (n : Name) (k : Nat) : Address := .relative n (Int64.ofNat k)

theorem eq_inSection {a : Address} (h : 0 ≤ a.value.toInt) :
    a = .inSection a.sectionName a.offset := by
  have hlt := a.value.toInt_lt
  have hvalue : Int64.ofNat a.value.toInt.toNat = a.value := by
    rw [← Int64.toInt_inj, Int64.toInt_ofNat_of_lt (by omega)]
    exact Int.toNat_of_nonneg h
  exact congrArg (Address.mk · a.sectionName) hvalue.symm

theorem add_inSection (n : Name) (k l : Nat) :
    (inSection n k).add (Int64.ofNat l) = inSection n (k + l) := by
  simp only [inSection, add, relative, Int64.ofNat_add]

variable {n : Name} {k : Nat}

theorem toInt_inSection (hk : k < 0x8000000000000000) : (inSection n k).value.toInt = k :=
  Int64.toInt_ofNat_of_lt hk

theorem offset_inSection (hk : k < 0x8000000000000000) : (inSection n k).offset = k := by
  rw [offset, toInt_inSection hk]
  exact Int.toNat_natCast k

end Address

namespace Module

def byte? (m : Module) (n : Name) (k : Nat) : Option UInt8 := (m.section? n).bind (·.contents[k]?)

def wordIn? (m : Module) (o : ByteOrder) (n : Name) (k : Nat) : Option UInt32 := do
  let a ← m.byte? n k
  let b ← m.byte? n (k + 1)
  let c ← m.byte? n (k + 2)
  let d ← m.byte? n (k + 3)
  pure (o.ofBytes [a, b, c, d])

theorem wordIn?_congr {m m' : Module} {o : ByteOrder} {n : Name} {j k : Nat}
    (h : ∀ i < 4, m.byte? n (j + i) = m'.byte? n (k + i)) : m.wordIn? o n j = m'.wordIn? o n k := by
  have h0 := h 0 (by decide)
  have h1 := h 1 (by decide)
  have h2 := h 2 (by decide)
  have h3 := h 3 (by decide)
  simp only [Nat.add_zero] at h0
  simp only [wordIn?, h0, h1, h2, h3]

theorem wordIn?_eq_of_bytes {m : Module} {o : ByteOrder} {n : Name} {k : Nat} {bs : List UInt8}
    (hl : bs.length = 4) (h : ∀ i < 4, m.byte? n (k + i) = bs[i]?) :
    m.wordIn? o n k = some (o.ofBytes bs) := by
  match bs, hl with
  | [a, b, c, d], _ =>
    have h0 := h 0 (by decide)
    have h1 := h 1 (by decide)
    have h2 := h 2 (by decide)
    have h3 := h 3 (by decide)
    simp only [Nat.add_zero] at h0
    simp [wordIn?, h0, h1, h2, h3]

theorem wordIn?_eq_some {m : Module} {o : ByteOrder} {n : Name} {k : Nat} {w : UInt32}
    (h : m.wordIn? o n k = some w) : ∃ a b c d, o.ofBytes [a, b, c, d] = w ∧
      ∀ i < 4, m.byte? n (k + i) = [a, b, c, d][i]? := by
  simp only [wordIn?, bind, Option.bind_eq_some_iff] at h
  obtain ⟨a, ha, b, hb, c, hc, d, hd, hw⟩ := h
  refine ⟨a, b, c, d, Option.some.inj hw, fun i hi => ?_⟩
  match i, hi with
  | 0, _ => exact ha
  | 1, _ => exact hb
  | 2, _ => exact hc
  | 3, _ => exact hd

theorem byte?_of_wordIn? {m : Module} {o : ByteOrder} {n : Name} {k : Nat} {w : UInt32}
    (h : m.wordIn? o n k = some w) : ∀ i < 4, m.byte? n (k + i) = (o.wordBytes w)[i]? := by
  obtain ⟨a, b, c, d, rfl, hbytes⟩ := wordIn?_eq_some h
  rw [ByteOrder.wordBytes_ofBytes]
  exact hbytes

theorem byte?_eq {m : Module} {n : Name} {s : Section} (hs : m.section? n = some s) (k : Nat) :
    m.byte? n k = s.contents[k]? := by
  rw [byte?, hs, Option.bind_some]

theorem wordBytes?_eq_some {s : Section} {k : Nat} {bs : List UInt8}
    (h : wordBytes? s k = some bs) :
    k + 4 ≤ s.length ∧ bs.length = 4 ∧ ∀ i < 4, s.contents[k + i]? = bs[i]? := by
  unfold wordBytes? at h
  split at h
  · next hle =>
    cases h
    refine ⟨hle, rfl, fun i hi => ?_⟩
    rw [Section.contents_getElem? (by omega)]
    match i, hi with
    | 0, _ => rfl
    | 1, _ => rfl
    | 2, _ => rfl
    | 3, _ => rfl
  · cases h

theorem wordBytes?_eq_some_of_le {s : Section} {k : Nat} (h : k + 4 ≤ s.length) :
    ∃ bs, wordBytes? s k = some bs := by
  simp [wordBytes?, h]

theorem wordIn?_eq_of_wordBytes? {m : Module} {o : ByteOrder} {n : Name} {s : Section} {k : Nat}
    {bs : List UInt8} (hs : m.section? n = some s) (hb : wordBytes? s k = some bs) :
    m.wordIn? o n k = some (o.ofBytes bs) := by
  obtain ⟨-, hl, hbs⟩ := wordBytes?_eq_some hb
  exact wordIn?_eq_of_bytes hl fun i hi => (byte?_eq hs _).trans (hbs i hi)

theorem contents_putBytes_cut (s : Section) (k : Nat) (bs : List UInt8) (j : Nat) :
    (putBytes s k bs).contents[j]? =
      if k ≤ j ∧ j < k + bs.length ∧ j < s.length then bs[j - k]? else s.contents[j]? := by
  induction bs generalizing s k with
  | nil => simp [putBytes, show ¬(k ≤ j ∧ j < k ∧ j < s.length) by omega]
  | cons b bs ih =>
    let s' : Section := { s with bytes := s.bytes.set! k b }
    have hs' : s'.contents = s.contents.set k b := by
      simp [s', Section.contents, ByteArray.set!, Array.set!_eq_setIfInBounds]
    have hlen : s'.length = s.length := by
      rw [← Section.length_contents, hs', List.length_set, Section.length_contents]
    have heq : putBytes s k (b :: bs) = putBytes s' (k + 1) bs := rfl
    rw [heq, ih s' (k + 1), hs', hlen, List.getElem?_set, Section.length_contents, List.length_cons]
    by_cases h1 : k = j
    · subst h1
      by_cases hk : k < s.length <;> simp [hk]
    · by_cases h2 : k + 1 ≤ j ∧ j < k + 1 + bs.length ∧ j < s.length
      · rw [if_pos h2, if_pos (by omega), show j - k = j - (k + 1) + 1 by omega,
          List.getElem?_cons_succ]
      · rw [if_neg h2, if_neg h1, if_neg (by omega)]

theorem contents_putBytes (s : Section) (k : Nat) (bs : List UInt8) (h : k + bs.length ≤ s.length)
    (j : Nat) :
    (putBytes s k bs).contents[j]? =
      if k ≤ j ∧ j < k + bs.length then bs[j - k]? else s.contents[j]? := by
  rw [contents_putBytes_cut]
  by_cases hj : k ≤ j ∧ j < k + bs.length
  · rw [if_pos hj, if_pos ⟨hj.1, hj.2, by omega⟩]
  · rw [if_neg hj, if_neg fun h => hj ⟨h.1, h.2.1⟩]

theorem length_putBytes (s : Section) (k : Nat) (bs : List UInt8) :
    (putBytes s k bs).length = s.length := by
  have h : ∀ (bs : List UInt8) (k : Nat) (bytes : ByteArray),
      ((bs.zipIdx k).foldl (fun bytes b => bytes.set! b.2 b.1) bytes).size = bytes.size := by
    intro bs
    induction bs with
    | nil => exact fun _ _ => rfl
    | cons b bs ih =>
      intro k bytes
      rw [List.zipIdx_cons, List.foldl_cons, ih]
      exact Array.size_setIfInBounds
  exact h bs k s.bytes

theorem find?_map_update {α : Type} (key : α → Name) (n n' : Name) (f : α → α)
    (hf : ∀ x, key (f x) = key x) (xs : List α) :
    (xs.map fun x => if key x = n then f x else x).find? (key · = n') =
      if n' = n then (xs.find? (key · = n)).map f else xs.find? (key · = n') := by
  induction xs with
  | nil => simp
  | cons x xs ih =>
    simp only [List.map_cons, List.find?_cons]
    by_cases hx : key x = n
    · by_cases hn : n' = n
      · simp [hx, hn, hf]
      · simp only [if_pos hx, hf, if_neg hn] at ih ⊢
        simp [show ¬ key x = n' from fun h => hn (h.symm.trans hx), ih]
    · by_cases hn : n' = n
      · subst hn
        simp only [if_true] at ih
        simp [hx, ih]
      · simp only [if_neg hn] at ih
        simp [hx, hn, ih]

theorem map_key_update {α : Type} (key : α → Name) (n : Name) (f : α → α)
    (hf : ∀ x, key x = n → key (f x) = n) (xs : List α) :
    (xs.map fun x => if key x = n then f x else x).map key = xs.map key := by
  rw [List.map_map]
  refine List.map_congr_left fun x _ => ?_
  rw [Function.comp_apply]
  split
  · next hx => exact (hf x hx).trans hx.symm
  · rfl

theorem find?_append_new {α : Type} {key : α → Name} {x : α} {xs : List α}
    (h : xs.find? (key · = key x) = none) (n : Name) :
    (xs ++ [x]).find? (key · = n) = if n = key x then some x else xs.find? (key · = n) := by
  rw [List.find?_append]
  by_cases hn : n = key x
  · subst hn
    simp [h]
  · rw [if_neg hn, List.find?_singleton, if_neg (by simpa using Ne.symm hn), Option.or_none]

theorem nodup_append_new {α : Type} {key : α → Name} {x : α} {xs : List α}
    (hd : (xs.map key).Nodup) (h : xs.find? (key · = key x) = none) :
    ((xs ++ [x]).map key).Nodup := by
  have hnew : ∀ y ∈ xs, key y ≠ key x := by simpa [List.find?_eq_none] using h
  rw [List.map_append, List.nodup_append]
  refine ⟨hd, by simp, fun a ha b hb => ?_⟩
  obtain ⟨y, hy, rfl⟩ := List.mem_map.mp ha
  rw [List.map_singleton, List.mem_singleton] at hb
  exact hb ▸ hnew y hy

theorem section?_updateSection (m : Module) (n n' : Name) (f : Section → Section)
    (hf : ∀ s, (f s).name = s.name) :
    (m.updateSection n f).section? n' =
      if n' = n then (m.section? n).map f else m.section? n' :=
  find?_map_update Section.name n n' f hf m.sections

end Module

end MipsToolchain
