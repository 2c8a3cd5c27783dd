import MipsToolchain.Proofs.Object.Additivity

namespace MipsToolchain.Module

def HoldsWord (m : Module) (loc : Address) : Prop :=
  ∃ s ∈ m.section? loc.sectionName, 0 ≤ loc.value.toInt ∧ loc.value.toInt ≤ s.length - 4

instance (m : Module) (loc : Address) : Decidable (m.HoldsWord loc) :=
  inferInstanceAs (Decidable (∃ s ∈ m.section? loc.sectionName, _ ∧ _))

/-- Whether a word at an address of a section would end beyond the range of offsets, so that where
it ends cannot be computed. -/
def OverrunsAt (m : Module) (loc : Address) : Prop :=
  (m.section? loc.sectionName).isSome ∧ 0x8000000000000000 ≤ loc.value.toInt + 4

instance (m : Module) (loc : Address) : Decidable (m.OverrunsAt loc) :=
  inferInstanceAs (Decidable (_ ∧ _))

def refusal (m : Module) (loc : Address) : AccessError :=
  if (m.section? loc.sectionName).isSome then .outOfBounds loc
  else .unknownSection loc.sectionName

/-- What an access to the word at an address comes to, where `a` is the result for a word that is
there. -/
def accessed {α : Type} (m : Module) (loc : Address) (a : α) :
    Except Fault (Except AccessError α) :=
  match m.section? loc.sectionName with
  | none => .ok (.error (.unknownSection loc.sectionName))
  | some s =>
    if 0x8000000000000000 ≤ loc.value.toInt + 4 then .error .outOfRange
    else if 0 ≤ loc.value.toInt ∧ loc.value.toInt ≤ s.length - 4 then .ok (.ok a)
    else .ok (.error (.outOfBounds loc))

section Outcomes

variable {α : Type} {m : Module} {loc : Address} {a : α} {e : AccessError} {f : Fault}

theorem accessed_of_holdsWord (hm : m.offset loc.sectionName < 0x8000000000000000)
    (h : m.HoldsWord loc) : m.accessed loc a = .ok (.ok a) := by
  obtain ⟨s, hs, hle, hlt⟩ := h
  rw [Option.mem_def] at hs
  rw [offset, hs, Option.map_some, Option.getD_some] at hm
  rw [accessed, hs]
  dsimp only
  rw [if_neg (by omega), if_pos ⟨hle, hlt⟩]

theorem accessed_of_overrunsAt (h : m.OverrunsAt loc) : m.accessed loc a = .error .outOfRange := by
  obtain ⟨hsome, hover⟩ := h
  obtain ⟨s, hs⟩ := Option.isSome_iff_exists.mp hsome
  rw [accessed, hs]
  exact if_pos hover

theorem accessed_of_refused (h : ¬ m.HoldsWord loc) (hover : ¬ m.OverrunsAt loc) :
    m.accessed loc a = .ok (.error (m.refusal loc)) := by
  unfold HoldsWord at h
  unfold OverrunsAt at hover
  unfold accessed refusal
  cases hs : m.section? loc.sectionName with
  | none => rfl
  | some s =>
    rw [hs, Option.isSome_some] at hover
    dsimp only
    rw [if_neg fun hlt => hover ⟨rfl, hlt⟩, if_neg fun hin => h ⟨s, hs, hin⟩]
    rfl

theorem accessed_eq_fault_iff (hm : m.offset loc.sectionName < 0x8000000000000000) :
    m.accessed loc a = .error f ↔ m.OverrunsAt loc ∧ f = .outOfRange := by
  by_cases hover : m.OverrunsAt loc
  · rw [accessed_of_overrunsAt hover]
    simp [hover, eq_comm]
  · by_cases h : m.HoldsWord loc
    · simp [accessed_of_holdsWord hm h, hover]
    · simp [accessed_of_refused h hover, hover]

theorem accessed_eq_error_iff (hm : m.offset loc.sectionName < 0x8000000000000000) :
    m.accessed loc a = .ok (.error e) ↔
      (¬ m.HoldsWord loc ∧ ¬ m.OverrunsAt loc) ∧ e = m.refusal loc := by
  by_cases hover : m.OverrunsAt loc
  · simp [accessed_of_overrunsAt hover, hover]
  · by_cases h : m.HoldsWord loc
    · simp [accessed_of_holdsWord hm h, h]
    · simp [accessed_of_refused h hover, h, hover, eq_comm]

theorem accessed_isOk_iff (hm : m.offset loc.sectionName < 0x8000000000000000) :
    (∃ b, m.accessed loc a = .ok (.ok b)) ↔ m.HoldsWord loc := by
  by_cases h : m.HoldsWord loc
  · simp [accessed_of_holdsWord hm h, h]
  · by_cases hover : m.OverrunsAt loc
    · simp [accessed_of_overrunsAt hover, h]
    · simp [accessed_of_refused h hover, h]

end Outcomes

section Words

variable {m : Module} {loc : Address} {s : Section} {e : AccessError} {f : Fault}

/-- The check of an address passes also for the words that would end beyond the range of offsets,
where the sum that it computes wraps around. -/
theorem wordAt_of_section? (hs : m.section? loc.sectionName = some s)
    (hm : s.length < 0x8000000000000000) :
    m.wordAt loc = if 0x8000000000000000 ≤ loc.value.toInt + 4 ∨
      0 ≤ loc.value.toInt ∧ loc.value.toInt ≤ s.length - 4 then .ok s
      else .error (.outOfBounds loc) := by
  have hlen : (Int64.ofNat s.length).toInt = s.length := Int64.toInt_ofNat_of_lt hm
  have hfour : (4 : Int64).toInt = 4 := rfl
  have hle := loc.value.le_toInt
  have hlt := loc.value.toInt_lt
  have hcheck : (loc.value < 0 ∨ Int64.ofNat s.length < loc.value + 4) ↔
      ¬ (0x8000000000000000 ≤ loc.value.toInt + 4 ∨
        0 ≤ loc.value.toInt ∧ loc.value.toInt ≤ s.length - 4) := by
    rw [Int64.lt_iff_toInt_lt, Int64.lt_iff_toInt_lt, Int64.toInt_zero, hlen, Int64.toInt_add,
      hfour, Int.bmod_def]
    split <;> omega
  rw [wordAt, hs]
  dsimp only
  rw [if_congr hcheck rfl rfl, ite_not]

theorem run_bind_wordAt {α : Type} (hm : m.offset loc.sectionName < 0x8000000000000000)
    {g : Section → ExceptT AccessError (Except Fault) α} {a : α}
    (hthere : ∀ s, m.section? loc.sectionName = some s → loc.offset + 4 ≤ s.length →
      (g s).run = .ok (.ok a))
    (hbeyond : ∀ s : Section, ¬ loc.offset + 4 ≤ s.length → (g s).run = .error .outOfRange) :
    (ExceptT.mk (.ok (m.wordAt loc)) >>= g).run = m.accessed loc a := by
  unfold accessed
  cases hs : m.section? loc.sectionName with
  | none =>
    rw [wordAt, hs]
    rfl
  | some s =>
    rw [offset, hs, Option.map_some, Option.getD_some] at hm
    rw [wordAt_of_section? hs hm]
    dsimp only
    by_cases hover : 0x8000000000000000 ≤ loc.value.toInt + 4
    · rw [if_pos (.inl hover), if_pos hover, mk_ok_bind]
      exact hbeyond s (by unfold Address.offset; omega)
    · rw [if_neg hover]
      by_cases hin : 0 ≤ loc.value.toInt ∧ loc.value.toInt ≤ s.length - 4
      · rw [if_pos (.inr hin), if_pos hin, mk_ok_bind]
        exact hthere s hs (by unfold Address.offset; omega)
      · rw [if_neg (not_or.mpr ⟨hover, hin⟩), if_neg hin]
        rfl

theorem readWord_eq_accessed (hm : m.offset loc.sectionName < 0x8000000000000000) :
    (m.readWord loc).run =
      m.accessed loc ((m.wordIn? m.order loc.sectionName loc.offset).getD 0) := by
  refine run_bind_wordAt hm (fun s hs hle => ?_) fun s hle => ?_
  · obtain ⟨bs, hbs⟩ := wordBytes?_eq_some_of_le hle
    rw [wordIn?_eq_of_wordBytes? (o := m.order) hs hbs, ← Address.offset, hbs]
    rfl
  · have hbs : wordBytes? s loc.offset = none := if_neg hle
    rw [← Address.offset, hbs]
    rfl

theorem writeWord_eq_accessed (hm : m.offset loc.sectionName < 0x8000000000000000) (w : UInt32) :
    (m.writeWord loc w).run = m.accessed loc (m.withWord loc w) := by
  refine run_bind_wordAt hm (fun s hs hle => ?_) fun s hle => ?_
  · obtain ⟨bs, hbs⟩ := wordBytes?_eq_some_of_le hle
    dsimp only
    rw [← Address.offset, hbs]
    rfl
  · have hbs : wordBytes? s loc.offset = none := if_neg hle
    dsimp only
    rw [← Address.offset, hbs]
    rfl

theorem readWord_of_holdsWord (hm : m.offset loc.sectionName < 0x8000000000000000)
    (h : m.HoldsWord loc) : ∃ w, (m.readWord loc).run = .ok (.ok w) ∧
      m.wordIn? m.order loc.sectionName loc.offset = some w := by
  have hread := readWord_eq_accessed hm
  rw [accessed_of_holdsWord hm h] at hread
  exact ⟨_, hread, readWord_eq_ok hread⟩

theorem readWord_eq_fault_iff (hm : m.offset loc.sectionName < 0x8000000000000000) :
    (m.readWord loc).run = .error f ↔ m.OverrunsAt loc ∧ f = .outOfRange := by
  rw [readWord_eq_accessed hm, accessed_eq_fault_iff hm]

theorem readWord_of_refused (hm : m.offset loc.sectionName < 0x8000000000000000)
    (h : ¬ m.HoldsWord loc) (hover : ¬ m.OverrunsAt loc) :
    (m.readWord loc).run = .ok (.error (m.refusal loc)) :=
  (readWord_eq_accessed hm).trans (accessed_of_refused h hover)

end Words

/-- What is left alone by writing the word at an address: everything but its four bytes. -/
structure DiffersAt (m : Module) (loc : Address) (m' : Module) : Prop where
  rest : { m' with sections := m.sections } = m
  shapes : m'.sections.map ({ · with bytes := .empty }) = m.sections.map ({ · with bytes := .empty })
  lengths : ∀ n, m'.offset n = m.offset n
  bytes : ∀ n k, ¬ (n = loc.sectionName ∧ loc.offset ≤ k ∧ k < loc.offset + 4) →
    m'.byte? n k = m.byte? n k

theorem differsAt_withWord {m : Module} {loc : Address} {w : UInt32}
    (h : (m.readWord loc).run = .ok (.ok w)) (u : UInt32) :
    m.DiffersAt loc (m.withWord loc u) := by
  obtain ⟨s, hs, hle, -⟩ := readWord_eq_ok_iff.mp h
  refine ⟨rfl, sections_patch, fun n => ?_, fun n k hk => ?_⟩
  · rw [offset, offset, withWord, length_section?_patch]
  · rw [withWord, byte?_patch (wordAt_eq_ok hs) (ByteOrder.length_wordBytes _ _) hle]
    exact if_neg fun hc => hk ⟨hc.1.symm, hc.2⟩

section Relocation

variable {m : Module} {r : Reference} {delta : Int64} {w : UInt32} {f : Fault}

/-- Patching a word of a known kind takes no other word, but for the upper half of an address. -/
theorem relocatedWord_eq_fault_iff (hk : r.kind.isAssigned) :
    (m.relocatedWord r w delta).run = .error f ↔
      r.kind = .high16 ∧ (m.readWord (r.location.add 4)).run = .error f := by
  unfold relocatedWord
  cases hkind : r.kind with
  | absolute32 | low16 => exact ⟨nofun, fun h => (nomatch h.1)⟩
  | high16 =>
    rw [run_bind_eq_error, run_adapt_eq_error]
    refine ⟨fun h => ⟨rfl, h.resolve_right ?_⟩, fun h => .inl h.2⟩
    rintro ⟨_, _, h⟩
    cases h
  | jump26 =>
    dsimp only
    split <;> exact ⟨nofun, fun h => (nomatch h.1)⟩
  | pcrel16 =>
    dsimp only
    split
    · exact ⟨nofun, fun h => (nomatch h.1)⟩
    · split <;> exact ⟨nofun, fun h => (nomatch h.1)⟩
  | unassigned =>
    rw [hkind] at hk
    cases hk

theorem relocate_eq_fault_iff (hk : r.kind.isAssigned) :
    (m.relocate r delta).run = .error f ↔ (m.readWord r.location).run = .error f ∨
      ∃ w, (m.readWord r.location).run = .ok (.ok w) ∧
        r.kind = .high16 ∧ (m.readWord (r.location.add 4)).run = .error f := by
  rw [relocate, run_bind_eq_error, run_adapt_eq_error]
  refine or_congr_right (exists_congr fun w => ?_)
  rw [run_adapt_eq_ok]
  refine and_congr_right fun hread => ?_
  rw [run_bind_eq_error, relocatedWord_eq_fault_iff hk]
  refine or_iff_left ?_
  rintro ⟨w', -, h⟩
  rw [run_adapt_eq_error, writeWord_of_readWord hread] at h
  cases h

theorem relocate_eq_fault_iff_overrunsAt
    (hm : m.offset r.location.sectionName < 0x8000000000000000) (hk : r.kind.isAssigned) :
    (m.relocate r delta).run = .error f ↔ (m.OverrunsAt r.location ∨
      r.kind = .high16 ∧ m.HoldsWord r.location ∧ m.OverrunsAt (r.location.add 4)) ∧
      f = .outOfRange := by
  have hm' : m.offset (r.location.add 4).sectionName < 0x8000000000000000 := hm
  have hholds : (∃ w, (m.readWord r.location).run = .ok (.ok w)) ↔ m.HoldsWord r.location := by
    rw [readWord_eq_accessed hm]
    exact accessed_isOk_iff hm
  rw [relocate_eq_fault_iff hk, exists_and_right, hholds, readWord_eq_fault_iff hm,
    readWord_eq_fault_iff hm', or_and_right, and_assoc, and_left_comm, and_assoc]

theorem relocate_of_refused (hm : m.offset r.location.sectionName < 0x8000000000000000)
    (h : ¬ m.HoldsWord r.location) (hover : ¬ m.OverrunsAt r.location) :
    (m.relocate r delta).run = .ok (.error (.access (m.refusal r.location))) :=
  run_bind_of_error (run_adapt_of_error (readWord_of_refused hm h hover) _) _

theorem relocate_of_unpaired (hm : m.offset r.location.sectionName < 0x8000000000000000)
    (hk : r.kind = .high16) (h : m.HoldsWord r.location)
    (hlower : ¬ m.HoldsWord (r.location.add 4)) (hover : ¬ m.OverrunsAt (r.location.add 4)) :
    (m.relocate r delta).run = .ok (.error (.unpaired r (m.refusal (r.location.add 4)))) := by
  obtain ⟨w, hw, -⟩ := readWord_of_holdsWord hm h
  have hm' : m.offset (r.location.add 4).sectionName < 0x8000000000000000 := hm
  have hrefused := readWord_of_refused hm' hlower hover
  rw [relocate, run_bind_of_ok (run_adapt_eq_ok.mpr hw), relocatedWord, hk]
  exact run_bind_of_error (run_bind_of_error (run_adapt_of_error hrefused _) _) _

end Relocation

/-- A word is read and written exactly where its four bytes are, and what is written is read back
with no other byte changed. Elsewhere the access is refused, and so is patching a reference of a
known kind, unless the end of the word cannot be computed in 64 bits: then they fault. A section is
never longer than 64 bits can tell. -/
theorem word_access_checked (m : Module) (loc : Address)
    (hm : m.offset loc.sectionName < 0x8000000000000000) :
    (∀ e, (m.readWord loc).run = .ok (.error e) ↔
      (¬ m.HoldsWord loc ∧ ¬ m.OverrunsAt loc) ∧ e = m.refusal loc) ∧
    (∀ f, (m.readWord loc).run = .error f ↔ m.OverrunsAt loc ∧ f = .outOfRange) ∧
    (m.HoldsWord loc → ∃ w, (m.readWord loc).run = .ok (.ok w) ∧
      m.wordIn? m.order loc.sectionName loc.offset = some w) ∧
    (∀ x, (∀ e, (m.writeWord loc x).run = .ok (.error e) ↔
        (¬ m.HoldsWord loc ∧ ¬ m.OverrunsAt loc) ∧ e = m.refusal loc) ∧
      (∀ f, (m.writeWord loc x).run = .error f ↔ m.OverrunsAt loc ∧ f = .outOfRange) ∧
      (m.HoldsWord loc → ∃ m', (m.writeWord loc x).run = .ok (.ok m') ∧
        (m'.readWord loc).run = .ok (.ok x) ∧ m.DiffersAt loc m')) ∧
    ∀ r delta, r.location = loc → r.kind.isAssigned →
      (∀ f, (m.relocate r delta).run = .error f ↔ (m.OverrunsAt loc ∨
        r.kind = .high16 ∧ m.HoldsWord loc ∧ m.OverrunsAt (loc.add 4)) ∧ f = .outOfRange) ∧
      (¬ m.HoldsWord loc → ¬ m.OverrunsAt loc →
        (m.relocate r delta).run = .ok (.error (.access (m.refusal loc)))) ∧
      (r.kind = .high16 → m.HoldsWord loc → ¬ m.HoldsWord (loc.add 4) →
        ¬ m.OverrunsAt (loc.add 4) →
        (m.relocate r delta).run = .ok (.error (.unpaired r (m.refusal (loc.add 4))))) := by
  refine ⟨fun e => ?_, fun f => readWord_eq_fault_iff hm, readWord_of_holdsWord hm,
    fun x => ⟨fun e => ?_, fun f => ?_, fun h => ?_⟩, ?_⟩
  · rw [readWord_eq_accessed hm, accessed_eq_error_iff hm]
  · rw [writeWord_eq_accessed hm, accessed_eq_error_iff hm]
  · rw [writeWord_eq_accessed hm, accessed_eq_fault_iff hm]
  · obtain ⟨w, hw, -⟩ := readWord_of_holdsWord hm h
    exact ⟨_, writeWord_of_readWord hw x, readWord_withWord hw x, differsAt_withWord hw x⟩
  · rintro r delta rfl hk
    exact ⟨fun f => relocate_eq_fault_iff_overrunsAt hm hk, relocate_of_refused hm,
      relocate_of_unpaired hm⟩

/-- The last word of a section has nothing behind it that could be its lower half. At the end of all
offsets, the sum that is checked is negative. -/
theorem word_access_checked_splitModule :
    splitModule.offset ".text" < 0x8000000000000000 ∧
    (∃ m', (splitModule.writeWord (.relative ".text" 4) 0x12345678).run = .ok (.ok m') ∧
      (m'.readWord (.relative ".text" 4)).run = .ok (.ok 0x12345678) ∧
      ∀ k < 4, m'.byte? ".text" k = splitModule.byte? ".text" k) ∧
    (splitModule.relocate ⟨.relative ".text" 4, "x", .high16, 0⟩ 1).run =
      .ok (.error (.unpaired ⟨.relative ".text" 4, "x", .high16, 0⟩
        (.outOfBounds (.relative ".text" 8)))) ∧
    (splitModule.relocate ⟨.relative ".text" 5, "x", .absolute32, 0⟩ 1).run =
      .ok (.error (.access (.outOfBounds (.relative ".text" 5)))) ∧
    (splitModule.readWord (.relative ".text" 0x7fffffffffffffff)).run = .error .outOfRange := by
  have hm : splitModule.offset ".text" < 0x8000000000000000 := by decide
  obtain ⟨-, -, -, hwrite, hpatch⟩ := word_access_checked splitModule (.relative ".text" 4) hm
  obtain ⟨-, -, -, -, hpatch'⟩ := word_access_checked splitModule (.relative ".text" 5) hm
  obtain ⟨-, hfault, -⟩ :=
    word_access_checked splitModule (.relative ".text" 0x7fffffffffffffff) hm
  obtain ⟨m', hrun, hread, hdiffers⟩ := (hwrite 0x12345678).2.2 (by decide)
  refine ⟨hm, ⟨m', hrun, hread, fun k hk => hdiffers.bytes _ k fun h => ?_⟩, ?_, ?_, ?_⟩
  · exact absurd h.2.1 (Nat.not_le.mpr hk)
  · exact (hpatch ⟨.relative ".text" 4, "x", .high16, 0⟩ 1 rfl rfl).2.2 rfl (by decide) (by decide)
      (by decide)
  · exact (hpatch' ⟨.relative ".text" 5, "x", .absolute32, 0⟩ 1 rfl rfl).2.1 (by decide) (by decide)
  · exact (hfault .outOfRange).mpr ⟨by decide, rfl⟩

end MipsToolchain.Module
