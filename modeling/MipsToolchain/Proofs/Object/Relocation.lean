import MipsToolchain.Proofs.Effects
import MipsToolchain.Proofs.Object.Contents

namespace MipsToolchain

namespace Reference

def Covers (r : Reference) (n : Name) (k : Nat) : Prop :=
  r.location.sectionName = n ∧ r.location.offset ≤ k ∧ k < r.location.offset + 4

instance (r : Reference) (n : Name) (k : Nat) : Decidable (r.Covers n k) :=
  inferInstanceAs (Decidable (_ ∧ _ ∧ _))

def Disjoint (r q : Reference) : Prop :=
  r.location.sectionName = q.location.sectionName →
    r.location.offset + 4 ≤ q.location.offset ∨ q.location.offset + 4 ≤ r.location.offset

instance (r q : Reference) : Decidable (r.Disjoint q) :=
  inferInstanceAs (Decidable (_ → _))

theorem Disjoint.symm {r q : Reference} (h : r.Disjoint q) : q.Disjoint r :=
  fun hn => (h hn.symm).symm

theorem Disjoint.not_covers {r q : Reference} (h : r.Disjoint q) {i : Nat} (hi : i < 4) :
    ¬ q.Covers r.location.sectionName (r.location.offset + i) := by
  rintro ⟨hn, hle, hlt⟩
  have hd := h hn.symm
  omega

end Reference

namespace Module

theorem wordAt_eq_ok {m : Module} {loc : Address} {s : Section} (h : m.wordAt loc = .ok s) :
    m.section? loc.sectionName = some s := by
  unfold wordAt at h
  split at h
  · cases h
  · next hs =>
    split at h
    · cases h
    · cases h
      exact hs

theorem readWord_eq_ok {m : Module} {loc : Address} {w : UInt32}
    (h : (m.readWord loc).run = .ok (.ok w)) :
    m.wordIn? m.order loc.sectionName loc.offset = some w := by
  obtain ⟨s, hs, hw⟩ := run_bind_eq_ok.mp h
  have hs' : m.wordAt loc = .ok s := Except.ok.inj hs
  split at hw
  · next bs hbs =>
    cases hw
    exact wordIn?_eq_of_wordBytes? (wordAt_eq_ok hs') hbs
  · cases hw

theorem writeWord_eq_ok {m m' : Module} {loc : Address} {w : UInt32}
    (h : (m.writeWord loc w).run = .ok (.ok m')) :
    ∃ s, m.section? loc.sectionName = some s ∧ loc.offset + 4 ≤ s.length ∧
      m' = m.updateSection loc.sectionName (putBytes · loc.offset (m.order.wordBytes w)) := by
  obtain ⟨s, hs, hw⟩ := run_bind_eq_ok.mp h
  have hs' : m.wordAt loc = .ok s := Except.ok.inj hs
  dsimp only at hw
  split at hw
  · next bs hbs =>
    cases hw
    exact ⟨s, wordAt_eq_ok hs', (wordBytes?_eq_some hbs).1, rfl⟩
  · cases hw

theorem wordBytes?_congr {s t : Section} {k : Nat} (hl : s.length = t.length)
    (h : ∀ i < 4, s.contents[k + i]? = t.contents[k + i]?) : wordBytes? s k = wordBytes? t k := by
  by_cases hk : k + 4 ≤ s.length
  · obtain ⟨bs, hbs⟩ := wordBytes?_eq_some_of_le hk
    obtain ⟨cs, hcs⟩ := wordBytes?_eq_some_of_le (hl ▸ hk)
    obtain ⟨-, hlb, hb⟩ := wordBytes?_eq_some hbs
    obtain ⟨-, hlc, hc⟩ := wordBytes?_eq_some hcs
    rw [hbs, hcs]
    refine congrArg some (List.ext_getElem? fun i => ?_)
    by_cases hi : i < 4
    · rw [← hb i hi, ← hc i hi, h i hi]
    · rw [List.getElem?_eq_none (by omega), List.getElem?_eq_none (by omega)]
  · simp [wordBytes?, hk, hl ▸ hk]

theorem readWord_congr {m m' : Module} {loc : Address} (ho : m.order = m'.order)
    (hl : (m.section? loc.sectionName).map Section.length =
      (m'.section? loc.sectionName).map Section.length)
    (hb : ∀ i < 4, m.byte? loc.sectionName (loc.offset + i) =
      m'.byte? loc.sectionName (loc.offset + i)) : m.readWord loc = m'.readWord loc := by
  cases hs : m.section? loc.sectionName with
  | none =>
    rw [hs] at hl
    have hs' : m'.section? loc.sectionName = none := by simpa using hl.symm
    simp only [readWord, wordAt, hs, hs', ho]
  | some s =>
    rw [hs] at hl
    obtain ⟨t, ht, hlen⟩ := Option.map_eq_some_iff.mp hl.symm
    have hw : wordBytes? s loc.offset = wordBytes? t loc.offset :=
      wordBytes?_congr hlen.symm fun i hi => by
        rw [← byte?_eq hs, ← byte?_eq ht, hb i hi]
    unfold Address.offset at hw
    simp only [readWord, wordAt, hs, ht, hlen, ho]
    split <;> simp only [ExceptT.mk, bind, ExceptT.bind, ExceptT.bindCont, Except.bind, hw]

def withWord (m : Module) (loc : Address) (w : UInt32) : Module :=
  m.updateSection loc.sectionName (putBytes · loc.offset (m.order.wordBytes w))

section Access

variable {m : Module} {loc : Address} {w : UInt32}

theorem readWord_eq_ok_iff : (m.readWord loc).run = .ok (.ok w) ↔
    ∃ s, m.wordAt loc = .ok s ∧ loc.offset + 4 ≤ s.length ∧
      m.wordIn? m.order loc.sectionName loc.offset = some w := by
  constructor
  · intro h
    obtain ⟨s, hs, hw⟩ := run_bind_eq_ok.mp h
    refine ⟨s, Except.ok.inj hs, ?_, readWord_eq_ok h⟩
    split at hw
    · next bs hbs => exact (wordBytes?_eq_some hbs).1
    · cases hw
  · rintro ⟨s, hs, hle, hw⟩
    obtain ⟨bs, hbs⟩ := wordBytes?_eq_some_of_le hle
    have hword := wordIn?_eq_of_wordBytes? (o := m.order) (wordAt_eq_ok hs) hbs
    rw [hw] at hword
    rw [readWord, hs, mk_ok_bind, ← Address.offset, hbs, Option.some.inj hword]
    rfl

theorem writeWord_of_readWord (h : (m.readWord loc).run = .ok (.ok w)) (u : UInt32) :
    (m.writeWord loc u).run = .ok (.ok (m.withWord loc u)) := by
  obtain ⟨s, hs, hle, -⟩ := readWord_eq_ok_iff.mp h
  obtain ⟨bs, hbs⟩ := wordBytes?_eq_some_of_le hle
  rw [writeWord, hs, mk_ok_bind, ← Address.offset]
  dsimp only
  rw [hbs]
  rfl

end Access

theorem relocate_eq_ok_iff {m m' : Module} {r : Reference} {delta : Int64} :
    (m.relocate r delta).run = .ok (.ok m') ↔ ∃ w w', (m.readWord r.location).run = .ok (.ok w) ∧
      (m.relocatedWord r w delta).run = .ok (.ok w') ∧ m' = m.withWord r.location w' := by
  constructor
  · intro h
    obtain ⟨w, hw, h⟩ := run_bind_eq_ok.mp h
    obtain ⟨w', hw', h⟩ := run_bind_eq_ok.mp h
    have hread := run_adapt_eq_ok.mp hw
    rw [run_adapt_eq_ok, writeWord_of_readWord hread] at h
    cases h
    exact ⟨w, w', hread, hw', rfl⟩
  · rintro ⟨w, w', hw, hw', rfl⟩
    exact run_bind_eq_ok.mpr ⟨w, run_adapt_eq_ok.mpr hw,
      run_bind_eq_ok.mpr ⟨w', hw', run_adapt_eq_ok.mpr (writeWord_of_readWord hw w')⟩⟩

theorem relocate_eq_ok {m m' : Module} {r : Reference} {delta : Int64}
    (h : (m.relocate r delta).run = .ok (.ok m')) :
    ∃ s w w', m.section? r.location.sectionName = some s ∧ r.location.offset + 4 ≤ s.length ∧
      m.wordIn? m.order r.location.sectionName r.location.offset = some w ∧
      (m.relocatedWord r w delta).run = .ok (.ok w') ∧
      m' = m.updateSection r.location.sectionName
        (putBytes · r.location.offset (m.order.wordBytes w')) := by
  obtain ⟨w, w', hw, hw', hm⟩ := relocate_eq_ok_iff.mp h
  obtain ⟨s, hs, hle, hword⟩ := readWord_eq_ok_iff.mp hw
  exact ⟨s, w, w', wordAt_eq_ok hs, hle, hword, hw', hm⟩

section Patch

variable {m : Module} {n : Name} {s : Section} {k : Nat} {bs : List UInt8}

theorem byte?_patch (hs : m.section? n = some s) (hl : bs.length = 4) (hk : k + 4 ≤ s.length)
    (n' : Name) (j : Nat) :
    (m.updateSection n (putBytes · k bs)).byte? n' j =
      if n = n' ∧ k ≤ j ∧ j < k + 4 then bs[j - k]? else m.byte? n' j := by
  have hu := section?_updateSection m n n' (putBytes · k bs) fun _ => rfl
  by_cases hn : n = n'
  · subst hn
    rw [if_pos rfl, hs, Option.map_some] at hu
    rw [byte?_eq hu, byte?_eq hs, contents_putBytes s k bs (by omega), hl]
    simp
  · rw [if_neg (Ne.symm hn)] at hu
    simp [byte?, hu, hn]

theorem sections_patch :
    (m.updateSection n (putBytes · k bs)).sections.map ({ · with bytes := .empty }) =
      m.sections.map ({ · with bytes := .empty }) := by
  rw [updateSection, List.map_map]
  refine List.map_congr_left fun t _ => ?_
  rw [Function.comp_apply]
  split <;> rfl

theorem length_section?_patch (n' : Name) :
    ((m.updateSection n (putBytes · k bs)).section? n').map Section.length =
      (m.section? n').map Section.length := by
  rw [section?_updateSection m n n' (putBytes · k bs) fun _ => rfl]
  split
  · next h =>
    subst h
    cases m.section? n' <;> simp [length_putBytes]
  · rfl

theorem wordIn?_patch (hs : m.section? n = some s) (hk : k + 4 ≤ s.length) (o : ByteOrder)
    (w : UInt32) :
    (m.updateSection n (putBytes · k (o.wordBytes w))).wordIn? o n k = some w := by
  have h := wordIn?_eq_of_bytes (m := m.updateSection n (putBytes · k (o.wordBytes w))) (o := o)
    (n := n) (k := k) (ByteOrder.length_wordBytes o w) fun i hi => by
      rw [byte?_patch hs (ByteOrder.length_wordBytes o w) hk, if_pos ⟨rfl, by omega, by omega⟩,
        Nat.add_sub_cancel_left]
  rw [h, ByteOrder.ofBytes_wordBytes]

end Patch

/-- What a word becomes depends on the module only through the lower half of a split address. -/
theorem relocatedWord_congr {m m' : Module} {r : Reference} {w : UInt32} {delta : Int64}
    (h : r.kind = .high16 → m.readWord (r.location.add 4) = m'.readWord (r.location.add 4)) :
    m.relocatedWord r w delta = m'.relocatedWord r w delta := by
  unfold relocatedWord
  split <;> try rfl
  next hk => rw [h hk]

def joined (upper lower : UInt32) : Nat := upper.toNat % 0x10000 * 0x10000 + lower.toNat % 0x10000

section Words

variable {m : Module} {r : Reference} {w w' : UInt32} {delta : Int64}

theorem toNat_add_lowWord (w : UInt32) (delta : Int64) :
    ((w + Isa.lowWord delta).toNat : Int) = (w.toNat + delta.toInt) % 0x100000000 := by
  have hd := Isa.toNat_lowWord delta
  rw [UInt32.toNat_add]
  omega

theorem relocatedWord_absolute32 (hk : r.kind = .absolute32)
    (h : (m.relocatedWord r w delta).run = .ok (.ok w')) :
    (w'.toNat : Int) = (w.toNat + delta.toInt) % 0x100000000 := by
  unfold relocatedWord at h
  rw [hk] at h
  cases h
  exact toNat_add_lowWord w delta

theorem relocatedWord_low16 (hk : r.kind = .low16)
    (h : (m.relocatedWord r w delta).run = .ok (.ok w')) :
    w'.toNat / 0x10000 = w.toNat / 0x10000 ∧
      (w'.toNat % 0x10000 : Nat) = (w.toNat + delta.toInt) % 0x10000 := by
  unfold relocatedWord at h
  rw [hk] at h
  cases h
  have hsum := toNat_add_lowWord w delta
  rw [toNat_splice16]
  omega

theorem relocatedWord_high16 (hk : r.kind = .high16)
    (h : (m.relocatedWord r w delta).run = .ok (.ok w')) :
    ∃ v, m.wordIn? m.order r.location.sectionName (r.location.add 4).offset = some v ∧
      w'.toNat / 0x10000 = w.toNat / 0x10000 ∧
      (w'.toNat % 0x10000 : Nat) = (joined w v + delta.toInt) % 0x100000000 / 0x10000 := by
  unfold relocatedWord at h
  rw [hk] at h
  obtain ⟨v, hv, h⟩ := run_bind_eq_ok.mp h
  cases h
  refine ⟨v, readWord_eq_ok (run_adapt_eq_ok.mp hv), ?_⟩
  have hshl : ((w &&& 0xffff) <<< (16 : UInt32)).toNat = w.toNat % 0x10000 * 0x10000 := by
    rw [UInt32.toNat_shiftLeft, toNat_low16, Nat.shiftLeft_eq]
    have hlt := Nat.mod_lt w.toNat (show 0 < 0x10000 by decide)
    exact Nat.mod_eq_of_lt (Nat.mul_lt_mul_of_pos_right hlt (by decide))
  have hfull : (((w &&& 0xffff) <<< (16 : UInt32)) ||| (v &&& 0xffff)).toNat = joined w v := by
    rw [toNat_or_of_lt (k := 16), hshl, toNat_low16, joined]
    · rw [hshl]
      exact Nat.dvd_mul_left _ _
    · rw [toNat_low16]
      exact Nat.mod_lt _ (by decide)
  -- The carry is in the sum, since the lower half is added before the sum is cut off.
  have hsum := toNat_add_lowWord (((w &&& 0xffff) <<< (16 : UInt32)) ||| (v &&& 0xffff)) delta
  rw [hfull] at hsum
  generalize (((w &&& 0xffff) <<< (16 : UInt32)) ||| (v &&& 0xffff)) + Isa.lowWord delta = full
    at hsum ⊢
  have hlt := full.toNat_lt
  have hshr : (full >>> (16 : UInt32)).toNat = full.toNat / 0x10000 := by
    rw [UInt32.toNat_shiftRight, Nat.shiftRight_eq_div_pow]
    rfl
  have hor : ((w &&& 0xffff0000) ||| (full >>> (16 : UInt32))).toNat =
      w.toNat / 0x10000 * 0x10000 + full.toNat / 0x10000 := by
    rw [toNat_or_of_lt (k := 16), toNat_high16, hshr]
    · rw [toNat_high16]
      exact Nat.dvd_mul_left _ _
    · rw [hshr]
      exact Nat.div_lt_of_lt_mul hlt
  rw [hor]
  omega

/-- A displacement is moved by words, as long as it stays a signed half. -/
theorem relocatedWord_pcrel16 (hk : r.kind = .pcrel16)
    (h : (m.relocatedWord r w delta).run = .ok (.ok w')) :
    4 ∣ delta.toInt ∧ w'.toNat / 0x10000 = w.toNat / 0x10000 ∧
      (w'.toNat : Int).bmod 0x10000 = (w.toNat : Int).bmod 0x10000 + delta.toInt / 4 := by
  unfold relocatedWord at h
  rw [hk] at h
  dsimp only at h
  split at h
  · cases h
  · next hmod =>
    split at h
    · next hfits =>
      cases h
      have hdvd := Isa.dvd_toInt_of_mod_four (not_not.mp hmod)
      have hd := delta.toInt_lt
      have hd' := delta.le_toInt
      -- A signed half and a quarter of a distance are far from the ends of 64 bits.
      have hsum : (Isa.signExtend (Isa.immediateField w) 16 + (delta >>> 2)).toInt =
          (w.toNat : Int).bmod 0x10000 + delta.toInt / 4 := by
        rw [Int64.toInt_add, Isa.immediateField, Isa.immediateMask, Isa.toInt_signExtend16,
          Isa.toInt_shiftRight_two]
        apply Int.bmod_eq_of_le <;> simp only [Int.bmod_def] <;> split <;> omega
      have hlow := Isa.toNat_lowWord (Isa.signExtend (Isa.immediateField w) 16 + (delta >>> 2))
      simp only [Isa.fitsSigned, decide_eq_true_eq] at hfits
      obtain ⟨-, -, hle, hlt⟩ := hfits
      rw [hsum] at hlow hle hlt
      have hle' : -0x8000 ≤ (w.toNat : Int).bmod 0x10000 + delta.toInt / 4 := hle
      have hlt' : (w.toNat : Int).bmod 0x10000 + delta.toInt / 4 < 0x8000 := hlt
      rw [Isa.toNat_withImmediateField]
      refine ⟨hdvd, by omega, ?_⟩
      generalize (w.toNat : Int).bmod 0x10000 + delta.toInt / 4 = d at hlow hle' hlt'
      rw [Int.bmod_def]
      split <;> omega
    · cases h

/-- The field of a jump is moved by words, and loses what does not fit. -/
theorem relocatedWord_jump26 (hk : r.kind = .jump26)
    (h : (m.relocatedWord r w delta).run = .ok (.ok w')) :
    4 ∣ delta.toInt ∧ w'.toNat / 0x4000000 = w.toNat / 0x4000000 ∧
      (w'.toNat % 0x4000000 : Nat) = (w.toNat + delta.toInt / 4) % 0x4000000 := by
  unfold relocatedWord at h
  rw [hk] at h
  dsimp only at h
  split at h
  · cases h
  · next hmod =>
    cases h
    have hdvd := Isa.dvd_toInt_of_mod_four (not_not.mp hmod)
    have hlow := Isa.toNat_lowWord (delta >>> 2)
    rw [Isa.toInt_shiftRight_two] at hlow
    rw [Isa.toNat_withJumpField, Isa.jumpField, Isa.targetMask, UInt32.toNat_add, toNat_low26]
    exact ⟨hdvd, by omega, by omega⟩

end Words

end Module

end MipsToolchain
