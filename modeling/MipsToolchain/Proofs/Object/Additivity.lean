import MipsToolchain.Proofs.Object.History
import MipsToolchain.Proofs.Object.Relocation
import MipsToolchain.Proofs.Object.Slots

namespace MipsToolchain

open MipsToolchain.Isa

namespace RelocationKind

def width : RelocationKind → Nat
  | absolute32 => 32
  | jump26 => 26
  | _ => 16

/-- Whether a distance can be added to any word, because the field wraps around. -/
def Wraps (k : RelocationKind) (delta : Int64) : Prop :=
  k = absolute32 ∨ k = low16 ∨ k = jump26 ∧ delta % 4 = 0

instance (k : RelocationKind) (delta : Int64) : Decidable (k.Wraps delta) :=
  inferInstanceAs (Decidable (_ ∨ _ ∨ _ ∧ _))

end RelocationKind

namespace Module

section Words

variable {m m' : Module} {r : Reference} {w w₁ w₂ : UInt32} {d e : Int64}

theorem relocatedWord_keeps (h : (m.relocatedWord r w d).run = .ok (.ok w₁)) :
    w₁.toNat / 2 ^ r.kind.width = w.toNat / 2 ^ r.kind.width := by
  cases hk : r.kind with
  | absolute32 =>
    have hw := w.toNat_lt
    have hw₁ := w₁.toNat_lt
    rw [RelocationKind.width, Nat.div_eq_of_lt hw, Nat.div_eq_of_lt hw₁]
  | high16 =>
    obtain ⟨-, -, hkeep, -⟩ := relocatedWord_high16 hk h
    exact hkeep
  | low16 => exact (relocatedWord_low16 hk h).1
  | jump26 => exact (relocatedWord_jump26 hk h).2.1
  | pcrel16 => exact (relocatedWord_pcrel16 hk h).2.1
  | unassigned =>
    unfold relocatedWord at h
    rw [hk] at h
    cases h

theorem relocatedWord_of_wraps (h : r.kind.Wraps d) (m : Module) (w : UInt32) :
    ∃ w₁, (m.relocatedWord r w d).run = .ok (.ok w₁) := by
  unfold relocatedWord
  rcases h with hk | hk | ⟨hk, hmod⟩
  · rw [hk]
    exact ⟨_, rfl⟩
  · rw [hk]
    exact ⟨_, rfl⟩
  · rw [hk]
    dsimp only
    rw [if_neg (not_not.mpr hmod)]
    exact ⟨_, rfl⟩

theorem toInt_add_div_four (hd : 4 ∣ d.toInt) (he : 4 ∣ e.toInt) :
    4 ∣ (d + e).toInt ∧
      (d + e).toInt / 4 % 0x4000000 = (d.toInt / 4 + e.toInt / 4) % 0x4000000 := by
  rw [Int64.toInt_add, Int.bmod_def]
  split <;> omega

theorem bmod_half_range (n : Int) : -0x8000 ≤ n.bmod 0x10000 ∧ n.bmod 0x10000 < 0x8000 := by
  rw [Int.bmod_def]
  split <;> omega

theorem eq_of_halves (hhigh : w₁.toNat / 0x10000 = w₂.toNat / 0x10000)
    (hlow : (w₁.toNat : Int).bmod 0x10000 = (w₂.toNat : Int).bmod 0x10000) : w₁ = w₂ := by
  rw [Int.bmod_def, Int.bmod_def] at hlow
  rw [← UInt32.toNat_inj]
  split at hlow <;> split at hlow <;> omega

theorem relocatedWord_branch_range (hk : r.kind = .pcrel16)
    (h : (m.relocatedWord r w d).run = .ok (.ok w₁)) :
    -0x40000 < d.toInt ∧ d.toInt < 0x40000 := by
  obtain ⟨hdvd, -, hmove⟩ := relocatedWord_pcrel16 hk h
  have hw := bmod_half_range w.toNat
  have hw₁ := bmod_half_range w₁.toNat
  omega

theorem toInt_add_of_small (hd : -0x40000 < d.toInt ∧ d.toInt < 0x40000)
    (he : -0x40000 < e.toInt ∧ e.toInt < 0x40000) : (d + e).toInt = d.toInt + e.toInt := by
  rw [Int64.toInt_add]
  exact Int.bmod_eq_of_le (by omega) (by omega)

theorem relocatedWord_branch (hk : r.kind = .pcrel16) (hmod : d % 4 = 0)
    (hle : -0x8000 ≤ (w.toNat : Int).bmod 0x10000 + d.toInt / 4)
    (hlt : (w.toNat : Int).bmod 0x10000 + d.toInt / 4 < 0x8000) :
    ∃ w₁, (m.relocatedWord r w d).run = .ok (.ok w₁) := by
  have hd := d.toInt_lt
  have hd' := d.le_toInt
  have hsum : (signExtend (immediateField w) 16 + (d >>> 2)).toInt =
      (w.toNat : Int).bmod 0x10000 + d.toInt / 4 := by
    rw [Int64.toInt_add, immediateField, immediateMask, toInt_signExtend16, toInt_shiftRight_two]
    exact Int.bmod_eq_of_le (by omega) (by omega)
  have hfits : fitsSigned (signExtend (immediateField w) 16 + (d >>> 2)) 16 := by
    simp only [fitsSigned, decide_eq_true_eq, hsum]
    exact ⟨by decide, by decide, hle, hlt⟩
  unfold relocatedWord
  rw [hk]
  dsimp only
  rw [if_neg (not_not.mpr hmod), if_pos hfits]
  exact ⟨_, rfl⟩

/-- A word that is moved twice is moved by the sum, with the exception of the upper half of an
address, which needs the lower one moved in between. -/
theorem relocatedWord_add (hk : r.kind ≠ .high16) (h₁ : (m.relocatedWord r w d).run = .ok (.ok w₁))
    (h₂ : (m'.relocatedWord r w₁ e).run = .ok (.ok w₂)) :
    (m.relocatedWord r w (d + e)).run = .ok (.ok w₂) := by
  have heq : ∀ w₃, (m.relocatedWord r w (d + e)).run = .ok (.ok w₃) →
      w₃.toNat = w₂.toNat → (m.relocatedWord r w (d + e)).run = .ok (.ok w₂) := fun w₃ h hw => by
    rw [h, UInt32.toNat_inj.mp hw]
  -- The field after a move is known as a remainder or, for branches, as a number in range.
  cases hr : r.kind with
  | absolute32 =>
    obtain ⟨w₃, h₃⟩ := relocatedWord_of_wraps (d := d + e) (.inl hr) m w
    have hsum := toInt_add_mod d e
    have hw₁ := relocatedWord_absolute32 hr h₁
    have hw₂ := relocatedWord_absolute32 hr h₂
    have hw₃ := relocatedWord_absolute32 hr h₃
    exact heq w₃ h₃ (by omega)
  | high16 => exact absurd hr hk
  | low16 =>
    obtain ⟨w₃, h₃⟩ := relocatedWord_of_wraps (d := d + e) (.inr (.inl hr)) m w
    have hsum := toInt_add_mod d e
    obtain ⟨hkeep₁, hw₁⟩ := relocatedWord_low16 hr h₁
    obtain ⟨hkeep₂, hw₂⟩ := relocatedWord_low16 hr h₂
    obtain ⟨hkeep₃, hw₃⟩ := relocatedWord_low16 hr h₃
    exact heq w₃ h₃ (by omega)
  | jump26 =>
    obtain ⟨hdvd₁, hkeep₁, hw₁⟩ := relocatedWord_jump26 hr h₁
    obtain ⟨hdvd₂, hkeep₂, hw₂⟩ := relocatedWord_jump26 hr h₂
    obtain ⟨hdvd, hdiv⟩ := toInt_add_div_four hdvd₁ hdvd₂
    obtain ⟨w₃, h₃⟩ := relocatedWord_of_wraps (d := d + e)
      (.inr (.inr ⟨hr, mod_four_eq_zero_iff.mpr hdvd⟩)) m w
    obtain ⟨-, hkeep₃, hw₃⟩ := relocatedWord_jump26 hr h₃
    exact heq w₃ h₃ (by omega)
  | pcrel16 =>
    obtain ⟨hdvd₁, hkeep₁, hw₁⟩ := relocatedWord_pcrel16 hr h₁
    obtain ⟨hdvd₂, hkeep₂, hw₂⟩ := relocatedWord_pcrel16 hr h₂
    have hd := relocatedWord_branch_range hr h₁
    have he := relocatedWord_branch_range hr h₂
    have hdvd := (toInt_add_div_four hdvd₁ hdvd₂).1
    -- Both distances are small, so that their sum does not wrap around before it is divided.
    have hmove : (w.toNat : Int).bmod 0x10000 + (d + e).toInt / 4 =
        (w₂.toNat : Int).bmod 0x10000 := by
      rw [toInt_add_of_small hd he, Int.add_ediv_of_dvd_left hdvd₁, hw₂, hw₁, Int.add_assoc]
    obtain ⟨hle, hlt⟩ := bmod_half_range w₂.toNat
    rw [← hmove] at hle hlt
    obtain ⟨w₃, h₃⟩ := relocatedWord_branch (m := m) (d := d + e) (w := w) hr
      (mod_four_eq_zero_iff.mpr hdvd) hle hlt
    obtain ⟨-, hkeep₃, hw₃⟩ := relocatedWord_pcrel16 hr h₃
    rw [h₃, eq_of_halves (hkeep₃.trans (hkeep₂.trans hkeep₁).symm) (hw₃.trans hmove)]
  | unassigned =>
    unfold relocatedWord at h₁
    rw [hr] at h₁
    cases h₁

theorem relocatedWord_zero (h : (m.relocatedWord r w 0).run = .ok (.ok w₁)) (hk : r.kind ≠ .high16) :
    w₁ = w := by
  rw [← UInt32.toNat_inj]
  have hkeep := relocatedWord_keeps h
  cases hr : r.kind with
  | absolute32 =>
    have hw := relocatedWord_absolute32 hr h
    rw [Int64.toInt_zero] at hw
    have hlt := w.toNat_lt
    omega
  | high16 => exact absurd hr hk
  | low16 =>
    obtain ⟨-, hw⟩ := relocatedWord_low16 hr h
    rw [Int64.toInt_zero] at hw
    rw [hr] at hkeep
    dsimp only [RelocationKind.width] at hkeep
    omega
  | jump26 =>
    obtain ⟨-, -, hw⟩ := relocatedWord_jump26 hr h
    rw [Int64.toInt_zero] at hw
    rw [hr] at hkeep
    dsimp only [RelocationKind.width] at hkeep
    omega
  | pcrel16 =>
    obtain ⟨-, hhigh, hw⟩ := relocatedWord_pcrel16 hr h
    rw [Int64.toInt_zero, Int.zero_ediv, Int.add_zero] at hw
    exact congrArg UInt32.toNat (eq_of_halves hhigh hw)
  | unassigned =>
    unfold relocatedWord at h
    rw [hr] at h
    cases h

theorem relocatedWord_back (hk : r.kind ≠ .high16) (h : (m.relocatedWord r w d).run = .ok (.ok w₁)) :
    (m'.relocatedWord r w₁ (-d)).run = .ok (.ok w) := by
  obtain ⟨w₂, h₂⟩ : ∃ w₂, (m'.relocatedWord r w₁ (-d)).run = .ok (.ok w₂) := by
    cases hr : r.kind with
    | absolute32 => exact relocatedWord_of_wraps (.inl hr) m' w₁
    | high16 => exact absurd hr hk
    | low16 => exact relocatedWord_of_wraps (.inr (.inl hr)) m' w₁
    | jump26 =>
      have hdvd := (relocatedWord_jump26 hr h).1
      have hmod := mod_four_neg (mod_four_eq_zero_iff.mpr hdvd)
      exact relocatedWord_of_wraps (.inr (.inr ⟨hr, hmod⟩)) m' w₁
    | pcrel16 =>
      obtain ⟨hdvd, -, hw₁⟩ := relocatedWord_pcrel16 hr h
      have hd := relocatedWord_branch_range hr h
      have hneg : (-d).toInt / 4 = -(d.toInt / 4) := by
        rw [Int64.toInt_neg, Int.bmod_eq_of_le (by omega) (by omega)]
        exact Int.neg_ediv_of_dvd hdvd
      have hmove : (w₁.toNat : Int).bmod 0x10000 + (-d).toInt / 4 =
          (w.toNat : Int).bmod 0x10000 := by
        rw [hw₁, hneg, Int.add_neg_cancel_right]
      obtain ⟨hle, hlt⟩ := bmod_half_range w.toNat
      rw [← hmove] at hle hlt
      exact relocatedWord_branch hr (mod_four_neg (mod_four_eq_zero_iff.mpr hdvd)) hle hlt
    | unassigned =>
      unfold relocatedWord at h
      rw [hr] at h
      cases h
  have hzero := relocatedWord_add hk h h₂
  rw [Int64.add_right_neg] at hzero
  rw [h₂, relocatedWord_zero hzero hk]

end Words

section Patch

variable {m : Module} {loc a : Address} {u w : UInt32}

theorem section?_withWord (n : Name) :
    (m.withWord loc u).section? n =
      if n = loc.sectionName then
        (m.section? n).map (putBytes · loc.offset (m.order.wordBytes u))
      else m.section? n := by
  rw [withWord, section?_updateSection m _ n (putBytes · loc.offset _) fun _ => rfl]
  split
  · next hn => rw [hn]
  · rfl

theorem readWord_withWord (h : (m.readWord loc).run = .ok (.ok w)) (u : UInt32) :
    ((m.withWord loc u).readWord loc).run = .ok (.ok u) := by
  obtain ⟨s, hs, hle, -⟩ := readWord_eq_ok_iff.mp h
  have hsec := wordAt_eq_ok hs
  have hlen := length_putBytes s loc.offset (m.order.wordBytes u)
  refine readWord_eq_ok_iff.mpr ⟨putBytes s loc.offset (m.order.wordBytes u), ?_, ?_, ?_⟩
  · unfold wordAt at hs ⊢
    rw [section?_withWord, if_pos rfl, hsec, Option.map_some]
    rw [hsec] at hs
    dsimp only at hs ⊢
    rw [hlen]
    split at hs
    · cases hs
    · next hin => rw [if_neg hin]
  · rw [hlen]
    exact hle
  · exact wordIn?_patch hsec hle m.order u

theorem readWord_withWord_apart (hread : (m.readWord loc).run = .ok (.ok w))
    (h : a.sectionName = loc.sectionName → a.offset + 4 ≤ loc.offset ∨ loc.offset + 4 ≤ a.offset) :
    (m.withWord loc u).readWord a = m.readWord a := by
  obtain ⟨s, hs, hle, -⟩ := readWord_eq_ok_iff.mp hread
  refine readWord_congr rfl (length_section?_patch _) fun i hi => ?_
  rw [withWord, byte?_patch (wordAt_eq_ok hs) (ByteOrder.length_wordBytes _ _) hle, if_neg]
  rintro ⟨hn, hle', hlt⟩
  have happart := h hn.symm
  omega

theorem putBytes_putBytes (s : Section) (k : Nat) {bs cs : List UInt8} (h : bs.length = cs.length) :
    putBytes (putBytes s k bs) k cs = putBytes s k cs := by
  refine ext_putBytes rfl rfl rfl rfl fun i => ?_
  simp only [contents_putBytes_cut, length_putBytes, h]
  split <;> rfl

theorem withWord_withWord : (m.withWord loc u).withWord loc w = m.withWord loc w := by
  unfold withWord
  refine (updateSection_comp m _ (f := (putBytes · loc.offset _)) (fun _ => rfl) _).trans ?_
  exact updateSection_congr fun s => putBytes_putBytes s _ (by simp only [ByteOrder.length_wordBytes])

theorem withWord_comm (hn : a.sectionName = loc.sectionName)
    (h : a.offset + 4 ≤ loc.offset ∨ loc.offset + 4 ≤ a.offset) :
    (m.withWord a u).withWord loc w = (m.withWord loc w).withWord a u := by
  unfold withWord
  rw [hn]
  refine (updateSection_comp m _ (f := (putBytes · a.offset _)) (fun _ => rfl) _).trans
    (.trans ?_ (updateSection_comp m _ (f := (putBytes · loc.offset _)) (fun _ => rfl) _).symm)
  exact updateSection_congr fun s => putBytes_comm s (by simpa only [ByteOrder.length_wordBytes])

theorem section?_withWord_self (h : (m.readWord loc).run = .ok (.ok w)) (n : Name) :
    (m.withWord loc w).section? n = m.section? n := by
  obtain ⟨s, hs, hle, hw⟩ := readWord_eq_ok_iff.mp h
  have hsec := wordAt_eq_ok hs
  rw [section?_withWord]
  split
  · next hn =>
    subst hn
    rw [hsec]
    refine congrArg some (Section.ext rfl rfl rfl rfl (List.ext_getElem? fun i => ?_))
    change (putBytes s loc.offset _).contents[i]? = s.contents[i]?
    have hbytes := byte?_of_wordIn? hw
    rw [contents_putBytes s _ _ (by rwa [ByteOrder.length_wordBytes]), ByteOrder.length_wordBytes]
    split
    · next hi =>
      rw [← hbytes (i - loc.offset) (by omega), byte?_eq hsec]
      exact congrArg (s.contents[·]?) (by omega)
    · rfl
  · rfl

end Patch

/-- What patching the word of a reference leaves alone: everything but that word, and of the word
the bits above the field. -/
structure PatchedAt (m : Module) (r : Reference) (m' : Module) : Prop where
  rest : { m' with sections := m.sections } = m
  shapes : m'.sections.map ({ · with bytes := .empty }) = m.sections.map ({ · with bytes := .empty })
  bytes : ∀ n k, ¬ r.Covers n k → m'.byte? n k = m.byte? n k
  word : ∃ w w', m.wordIn? m.order r.location.sectionName r.location.offset = some w ∧
    m'.wordIn? m.order r.location.sectionName r.location.offset = some w' ∧
    w'.toNat / 2 ^ r.kind.width = w.toNat / 2 ^ r.kind.width

section Single

variable {m m₁ m₂ : Module} {r : Reference} {w : UInt32} {d e : Int64}

theorem patchedAt_of_relocate (h : (m.relocate r d).run = .ok (.ok m₁)) : m.PatchedAt r m₁ := by
  obtain ⟨s, w, w', hs, hle, hw, hrel, rfl⟩ := relocate_eq_ok h
  refine ⟨rfl, sections_patch, fun n k hc => ?_, w, w', hw, wordIn?_patch hs hle m.order w',
    relocatedWord_keeps hrel⟩
  rw [byte?_patch hs (ByteOrder.length_wordBytes _ _) hle]
  exact if_neg hc

/-- A word that cannot be read is not moved, by whatever distance. -/
theorem relocate_of_unread (h : ∀ w, (m.readWord r.location).run ≠ .ok (.ok w)) (d e : Int64) :
    (m.relocate r d).run = (m.relocate r e).run ∧ ∀ m', (m.relocate r d).run ≠ .ok (.ok m') :=
  run_bind_of_fails rfl (fun w hw => h w (run_adapt_eq_ok.mp hw)) _ _

theorem relocate_then (hk : r.kind ≠ .high16) (h₁ : (m.relocate r d).run = .ok (.ok m₁))
    (h₂ : (m₁.relocate r e).run = .ok (.ok m₂)) : (m.relocate r (d + e)).run = .ok (.ok m₂) := by
  obtain ⟨w, w₁, hw, hw₁, rfl⟩ := relocate_eq_ok_iff.mp h₁
  obtain ⟨v, w₂, hv, hw₂, rfl⟩ := relocate_eq_ok_iff.mp h₂
  rw [readWord_withWord hw w₁] at hv
  cases hv
  exact relocate_eq_ok_iff.mpr ⟨w, w₂, hw, relocatedWord_add hk hw₁ hw₂, withWord_withWord⟩

theorem relocate_back (hk : r.kind ≠ .high16) (h : (m.relocate r d).run = .ok (.ok m₁)) :
    ∃ m₂, (m₁.relocate r (-d)).run = .ok (.ok m₂) ∧ { m₂ with sections := m.sections } = m ∧
      ∀ n, m₂.section? n = m.section? n := by
  obtain ⟨w, w₁, hw, hw₁, rfl⟩ := relocate_eq_ok_iff.mp h
  refine ⟨_, relocate_eq_ok_iff.mpr
    ⟨w₁, w, readWord_withWord hw w₁, relocatedWord_back hk hw₁, rfl⟩, rfl, fun n => ?_⟩
  rw [withWord_withWord, section?_withWord_self hw]

theorem relocate_add (hd : r.kind.Wraps d) (he : r.kind.Wraps e) :
    (m.relocate r d >>= (·.relocate r e)).run = (m.relocate r (d + e)).run := by
  by_cases hread : ∃ w, (m.readWord r.location).run = .ok (.ok w)
  · obtain ⟨w, hw⟩ := hread
    obtain ⟨w₁, hw₁⟩ := relocatedWord_of_wraps hd m w
    obtain ⟨w₂, hw₂⟩ := relocatedWord_of_wraps he (m.withWord r.location w₁) w₁
    have h₁ := relocate_eq_ok_iff.mpr ⟨w, w₁, hw, hw₁, rfl⟩
    have h₂ := relocate_eq_ok_iff.mpr ⟨w₁, w₂, readWord_withWord hw w₁, hw₂, rfl⟩
    have hk : r.kind ≠ .high16 := by
      rcases hd with hk | hk | ⟨hk, -⟩ <;> rw [hk] <;> decide
    rw [run_bind_of_ok h₁, h₂, relocate_then hk h₁ h₂]
  · obtain ⟨hsame, hfails⟩ := relocate_of_unread (not_exists.mp hread) d (d + e)
    rw [(run_bind_of_fails rfl hfails _ pure).1, bind_pure, hsame]

end Single

/-- Patch the two halves of an address that is split over two words, the upper one first. -/
def relocateSplit (m : Module) (r q : Reference) (delta : Int64) :
    ExceptT RelocationError (Except Fault) Module := do
  let m' ← m.relocate r delta
  m'.relocate q delta

section Split

variable {m : Module} {r q : Reference} {u v : UInt32} {d e : Int64}

theorem toInt_nonneg_of_readWord {loc : Address} (h : (m.readWord loc).run = .ok (.ok u)) :
    0 ≤ loc.value.toInt := by
  obtain ⟨s, hs, -, -⟩ := readWord_eq_ok_iff.mp h
  unfold wordAt at hs
  split at hs
  · cases hs
  · split at hs
    · cases hs
    · next hin =>
      have hneg := (not_or.mp hin).1
      rw [Int64.lt_iff_toInt_lt, Int64.toInt_zero] at hneg
      omega

theorem offset_add_four {loc : Address} (h : (m.readWord loc).run = .ok (.ok u))
    (h' : (m.readWord (loc.add 4)).run = .ok (.ok v)) : (loc.add 4).offset = loc.offset + 4 := by
  have hpos := toInt_nonneg_of_readWord h
  have hpos' := toInt_nonneg_of_readWord h'
  have hfour : (4 : Int64).toInt = 4 := rfl
  have hlt := loc.value.toInt_lt
  unfold Address.offset
  unfold Address.add at hpos' ⊢
  dsimp only at hpos' ⊢
  rw [Int64.toInt_add, hfour, Int.bmod_def] at hpos' ⊢
  split at hpos' <;> split <;> omega

/-- Two halves of an address that are moved together, with the carry from the lower to the upper. -/
structure SplitMoved (u v : UInt32) (delta : Int64) (u' v' : UInt32) : Prop where
  upper : u'.toNat / 0x10000 = u.toNat / 0x10000
  lower : v'.toNat / 0x10000 = v.toNat / 0x10000
  sum : (joined u' v' : Int) = (joined u v + delta.toInt) % 0x100000000

theorem SplitMoved.add {u₁ v₁ u₂ v₂ u₃ v₃ : UInt32} (h₁ : SplitMoved u v d u₁ v₁)
    (h₂ : SplitMoved u₁ v₁ e u₂ v₂) (h₃ : SplitMoved u v (d + e) u₃ v₃) : u₂ = u₃ ∧ v₂ = v₃ := by
  have hsum := toInt_add_mod d e
  have hsum₁ := h₁.sum
  have hsum₂ := h₂.sum
  have hsum₃ := h₃.sum
  have hjoined : joined u₂ v₂ = joined u₃ v₃ := by omega
  have hupper := h₃.upper.trans (h₂.upper.trans h₁.upper).symm
  have hlower := h₃.lower.trans (h₂.lower.trans h₁.lower).symm
  unfold joined at hjoined
  rw [← UInt32.toNat_inj, ← UInt32.toNat_inj]
  exact ⟨by omega, by omega⟩

theorem readWord_lower (hu : (m.readWord r.location).run = .ok (.ok u))
    (hloc : q.location = r.location.add 4) (hv : (m.readWord q.location).run = .ok (.ok v))
    (u' : UInt32) : ((m.withWord r.location u').readWord q.location).run = .ok (.ok v) := by
  rw [hloc] at hv ⊢
  have hnext := offset_add_four hu hv
  rw [readWord_withWord_apart hu fun _ => .inr (by omega), hv]

theorem readWord_upper (hu : (m.readWord r.location).run = .ok (.ok u))
    (hloc : q.location = r.location.add 4) (hv : (m.readWord q.location).run = .ok (.ok v))
    (u' v' : UInt32) :
    (((m.withWord r.location u').withWord q.location v').readWord r.location).run =
      .ok (.ok u') := by
  have hnext : q.location.offset = r.location.offset + 4 := by
    rw [hloc] at hv ⊢
    exact offset_add_four hu hv
  rw [readWord_withWord_apart (readWord_lower hu hloc hv u') fun _ => .inl (by omega),
    readWord_withWord hu]

theorem relocateSplit_of_readWord (hr : r.kind = .high16) (hq : q.kind = .low16)
    (hloc : q.location = r.location.add 4) (hu : (m.readWord r.location).run = .ok (.ok u))
    (hv : (m.readWord q.location).run = .ok (.ok v)) (d : Int64) :
    ∃ u' v', (m.relocateSplit r q d).run =
        .ok (.ok ((m.withWord r.location u').withWord q.location v')) ∧ SplitMoved u v d u' v' := by
  obtain ⟨u', hu'⟩ : ∃ u', (m.relocatedWord r u d).run = .ok (.ok u') := by
    rw [relocatedWord, hr]
    rw [hloc] at hv
    exact ⟨_, run_bind_eq_ok.mpr ⟨v, run_adapt_eq_ok.mpr hv, rfl⟩⟩
  obtain ⟨v', hv'⟩ := relocatedWord_of_wraps (r := q) (d := d) (.inr (.inl hq))
    (m.withWord r.location u') v
  have hupper := relocate_eq_ok_iff.mpr ⟨u, u', hu, hu', rfl⟩
  have hlower := relocate_eq_ok_iff.mpr ⟨v, v', readWord_lower hu hloc hv u', hv', rfl⟩
  refine ⟨u', v', (run_bind_of_ok hupper _).trans hlower, ?_⟩
  obtain ⟨v₀, hv₀, hkeep, hhigh⟩ := relocatedWord_high16 hr hu'
  obtain ⟨hkeep', hlow⟩ := relocatedWord_low16 hq hv'
  have hsame : v₀ = v := by
    have hword := readWord_eq_ok hv
    rw [hloc] at hword
    exact Option.some.inj (hv₀.symm.trans hword)
  rw [hsame] at hhigh
  refine ⟨hkeep, hkeep', ?_⟩
  unfold joined at hhigh ⊢
  omega

theorem relocatedWord_of_unread (hr : r.kind = .high16)
    (h : ∀ v, (m.readWord (r.location.add 4)).run ≠ .ok (.ok v)) (u : UInt32) (d e : Int64) :
    (m.relocatedWord r u d).run = (m.relocatedWord r u e).run ∧
      ∀ u', (m.relocatedWord r u d).run ≠ .ok (.ok u') := by
  unfold relocatedWord
  rw [hr]
  exact run_bind_of_fails rfl (fun v hv => h v (run_adapt_eq_ok.mp hv)) _ _

theorem relocateSplit_of_unread (hr : r.kind = .high16) (hloc : q.location = r.location.add 4)
    (h : ¬ ∃ u v, (m.readWord r.location).run = .ok (.ok u) ∧
      (m.readWord q.location).run = .ok (.ok v)) (d e : Int64) :
    (m.relocateSplit r q d).run = (m.relocateSplit r q e).run ∧
      ∀ m', (m.relocateSplit r q d).run ≠ .ok (.ok m') := by
  obtain ⟨hsame, hfails⟩ : (m.relocate r d).run = (m.relocate r e).run ∧
      ∀ m', (m.relocate r d).run ≠ .ok (.ok m') := by
    by_cases hu : ∃ u, (m.readWord r.location).run = .ok (.ok u)
    · obtain ⟨u, hu⟩ := hu
      have hadapt := run_adapt_eq_ok (g := RelocationError.access).mpr hu
      obtain ⟨hsame, hfails⟩ := relocatedWord_of_unread hr
        (fun v hv => h ⟨u, v, hu, hloc ▸ hv⟩) u d e
      unfold relocate
      rw [run_bind_of_ok hadapt, run_bind_of_ok hadapt]
      exact run_bind_of_fails hsame hfails _ _
    · exact relocate_of_unread (not_exists.mp hu) d e
  exact run_bind_of_fails hsame hfails _ _

theorem relocateSplit_add (hr : r.kind = .high16) (hq : q.kind = .low16)
    (hloc : q.location = r.location.add 4) (d e : Int64) :
    (m.relocateSplit r q d >>= (·.relocateSplit r q e)).run =
      (m.relocateSplit r q (d + e)).run := by
  by_cases hread : ∃ u v, (m.readWord r.location).run = .ok (.ok u) ∧
      (m.readWord q.location).run = .ok (.ok v)
  · obtain ⟨u, v, hu, hv⟩ := hread
    obtain ⟨u₁, v₁, h₁, hmoved₁⟩ := relocateSplit_of_readWord hr hq hloc hu hv d
    obtain ⟨u₃, v₃, h₃, hmoved₃⟩ := relocateSplit_of_readWord hr hq hloc hu hv (d + e)
    have hv₁ := readWord_withWord (readWord_lower hu hloc hv u₁) v₁
    have hnext : q.location.offset = r.location.offset + 4 := by
      rw [hloc] at hv ⊢
      exact offset_add_four hu hv
    have hu₁ := readWord_upper hu hloc hv u₁ v₁
    obtain ⟨u₂, v₂, h₂, hmoved₂⟩ := relocateSplit_of_readWord hr hq hloc hu₁ hv₁ e
    obtain ⟨rfl, rfl⟩ := hmoved₁.add hmoved₂ hmoved₃
    have hn : r.location.sectionName = q.location.sectionName := by
      rw [hloc]
      rfl
    rw [run_bind_of_ok h₁, h₂, h₃, withWord_comm hn (.inl (by omega)), withWord_withWord,
      ← withWord_comm hn (.inl (by omega)), withWord_withWord]
  · obtain ⟨hsame, hfails⟩ := relocateSplit_of_unread hr hloc hread d (d + e)
    rw [(run_bind_of_fails rfl hfails _ pure).1, bind_pure, hsame]

end Split

/-- An error is found when the word is read or when its new value is computed. Nothing has been
written then. -/
def RefusesUnwritten (m : Module) (r : Reference) (delta : Int64) (x : RelocationError) : Prop :=
  (∃ a, (m.readWord r.location).run = .ok (.error a) ∧ x = .access a) ∨
    ∃ w, (m.readWord r.location).run = .ok (.ok w) ∧
      (m.relocatedWord r w delta).run = .ok (.error x)

theorem refusesUnwritten_of_relocate {m : Module} {r : Reference} {d : Int64} {x : RelocationError}
    (h : (m.relocate r d).run = .ok (.error x)) : m.RefusesUnwritten r d x := by
  have hadapt : (ExceptT.adapt RelocationError.access (m.readWord r.location)).run =
      (m.readWord r.location).run.map (Except.mapError .access) := rfl
  rw [relocate, ExceptT.run_bind, hadapt] at h
  rcases hread : (m.readWord r.location).run with f | ⟨a | w⟩
  · rw [hread] at h
    cases h
  · rw [hread] at h
    cases h
    exact .inl ⟨a, hread, rfl⟩
  · rw [hread] at h
    change ((m.relocatedWord r w d) >>= _).run = _ at h
    rcases hword : (m.relocatedWord r w d).run with f | ⟨y | w'⟩
    · rw [ExceptT.run_bind, hword] at h
      cases h
    · rw [ExceptT.run_bind, hword] at h
      cases h
      exact .inr ⟨w, hread, hword⟩
    · rw [run_bind_of_ok hword, run_adapt_eq_ok.mpr (writeWord_of_readWord hread w')] at h
      cases h

/-- Relocation changes all of a field or nothing, and moves that follow one another add up. -/
theorem relocate_additive (m : Module) (r : Reference) :
    (∀ d x, (m.relocate r d).run = .ok (.error x) →
      (Operation.relocate r d).apply m = m ∧ m.RefusesUnwritten r d x) ∧
    (∀ d m', (m.relocate r d).run = .ok (.ok m') → m.PatchedAt r m') ∧
    (∀ d e, r.kind.Wraps d → r.kind.Wraps e →
      (m.relocate r d >>= (·.relocate r e)).run = (m.relocate r (d + e)).run) ∧
    (∀ d e m₁ m₂, r.kind = .pcrel16 → (m.relocate r d).run = .ok (.ok m₁) →
      (m₁.relocate r e).run = .ok (.ok m₂) → (m.relocate r (d + e)).run = .ok (.ok m₂)) ∧
    (∀ d m₁, r.kind ≠ .high16 → (m.relocate r d).run = .ok (.ok m₁) →
      ∃ m₂, (m₁.relocate r (-d)).run = .ok (.ok m₂) ∧ { m₂ with sections := m.sections } = m ∧
        ∀ n, m₂.section? n = m.section? n) ∧
    ∀ q, r.kind = .high16 → q.kind = .low16 → q.location = r.location.add 4 →
      (∀ d u v, (m.readWord r.location).run = .ok (.ok u) →
        (m.readWord q.location).run = .ok (.ok v) →
        ∃ m' u' v', (m.relocateSplit r q d).run = .ok (.ok m') ∧
          (m'.readWord r.location).run = .ok (.ok u') ∧
          (m'.readWord q.location).run = .ok (.ok v') ∧ SplitMoved u v d u' v') ∧
      ∀ d e, (m.relocateSplit r q d >>= (·.relocateSplit r q e)).run =
        (m.relocateSplit r q (d + e)).run := by
  refine ⟨fun d x h => ⟨?_, refusesUnwritten_of_relocate h⟩, fun d m' => patchedAt_of_relocate,
    fun d e => relocate_add, fun d e m₁ m₂ hk => relocate_then (by rw [hk]; decide),
    fun d m₁ => relocate_back, fun q hr hq hloc => ⟨fun d u v hu hv => ?_, relocateSplit_add hr hq hloc⟩⟩
  · rw [Operation.apply, patched, h]
  · obtain ⟨u', v', hrun, hmoved⟩ := relocateSplit_of_readWord hr hq hloc hu hv d
    exact ⟨_, u', v', hrun, readWord_upper hu hloc hv u' v',
      readWord_withWord (readWord_lower hu hloc hv u') v', hmoved⟩

def splitModule : Module where
  name := "m"
  order := .big
  sections := [⟨".text", StandardSection.text.flags, 0, 0,
    [0x3c, 0x01, 0x00, 0x01, 0x34, 0x21, 0x80, 0x00].toByteArray⟩]

theorem relocate_additive_splitModule :
    ∃ m' u v, (splitModule.relocateSplit ⟨.relative ".text" 0, "x", .high16, 0⟩
        ⟨.relative ".text" 4, "x", .low16, 0⟩ 0x8000).run = .ok (.ok m') ∧
      (m'.readWord (.relative ".text" 0)).run = .ok (.ok u) ∧
      (m'.readWord (.relative ".text" 4)).run = .ok (.ok v) ∧ joined u v = 0x20000 := by
  obtain ⟨-, -, -, -, -, hsplit⟩ :=
    relocate_additive splitModule ⟨.relative ".text" 0, "x", .high16, 0⟩
  obtain ⟨hmove, -⟩ := hsplit ⟨.relative ".text" 4, "x", .low16, 0⟩ rfl rfl rfl
  obtain ⟨m', u, v, hrun, hu, hv, hmoved⟩ := hmove 0x8000 0x3c010001 0x34218000 rfl rfl
  have hsum : (joined u v : Int) = ((0x18000 : Nat) + (0x8000 : Int)) % 0x100000000 := hmoved.sum
  exact ⟨m', u, v, hrun, hu, hv, by omega⟩

end Module

end MipsToolchain
