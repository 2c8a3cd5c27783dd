import MipsToolchain.Proofs.Effects
import MipsToolchain.Proofs.Object.Contents

namespace MipsToolchain.Module

/-- The bytes of a section, of which there are none before the section exists. -/
def contentsOf (m : Module) (n : Name) : List UInt8 :=
  ((m.section? n).map Section.contents).getD []

theorem contentsOf_eq {m : Module} {n : Name} {s : Section} (h : m.section? n = some s) :
    m.contentsOf n = s.contents := by
  simp [contentsOf, h]

theorem byte?_eq_contentsOf (m : Module) (n : Name) (k : Nat) :
    m.byte? n k = (m.contentsOf n)[k]? := by
  cases h : m.section? n <;> simp [byte?, contentsOf, h]

theorem length_contentsOf (m : Module) (n : Name) : (m.contentsOf n).length = m.offset n := by
  cases h : m.section? n <;> simp [offset, contentsOf, h]

theorem offset_of_section? {m : Module} {n : Name} {s : Section} (h : m.section? n = some s) :
    m.offset n = s.length := by
  simp [offset, h]

theorem offset_of_none {m : Module} {n : Name} (h : m.section? n = none) : m.offset n = 0 := by
  simp [offset, h]

theorem isSectionName_congr {m m' : Module} (h : m'.sections = m.sections) (n : Name) :
    m'.isSectionName n = m.isSectionName n := by
  simp only [isSectionName, section?, h]

theorem isSectionName_eq_decide {m : Module}
    (h : ∀ s ∈ m.sections, s.name ∈ StandardSection.names) (n : Name) :
    m.isSectionName n = decide (n ∈ StandardSection.names) := by
  unfold isSectionName
  cases hs : m.section? n with
  | none => rfl
  | some s =>
    have hname : s.name = n := by simpa using List.find?_some hs
    have hn := h s (List.mem_of_find?_eq_some hs)
    rw [hname] at hn
    simp [hn]

theorem lt_offset_of_byte? {m : Module} {n : Name} {k : Nat} {b : UInt8}
    (h : m.byte? n k = some b) : k < m.offset n := by
  rw [byte?_eq_contentsOf] at h
  rw [← length_contentsOf]
  exact (List.getElem?_eq_some_iff.mp h).1

theorem le_offset_of_wordIn? {m : Module} {o : ByteOrder} {n : Name} {k : Nat} {w : UInt32}
    (h : m.wordIn? o n k = some w) : k + 4 ≤ m.offset n := by
  simp only [wordIn?, bind, Option.bind_eq_some_iff] at h
  obtain ⟨-, -, -, -, -, -, d, hd, -⟩ := h
  exact lt_offset_of_byte? hd

theorem section?_of_lt_offset {m : Module} {n : Name} {k : Nat} (h : k < m.offset n) :
    (m.section? n).isSome := by
  cases hs : m.section? n with
  | none => simp [offset, hs] at h
  | some t => rfl

theorem inside_of_wordIn? {m : Module} {o : ByteOrder} {n : Name} {k : Nat} {w : UInt32}
    (h : m.wordIn? o n k = some w) : ∃ s, m.section? n = some s ∧ k + 4 ≤ s.length := by
  have hk := le_offset_of_wordIn? h
  have hlt : k < m.offset n := by omega
  obtain ⟨s, hs⟩ := Option.isSome_iff_exists.mp (section?_of_lt_offset hlt)
  refine ⟨s, hs, ?_⟩
  simpa [offset, hs] using hk

def DistinctSections (m : Module) : Prop := (m.sections.map Section.name).Nodup

theorem DistinctSections.updateSection {m : Module} (h : m.DistinctSections) (n : Name)
    {f : Section → Section} (hf : ∀ s, (f s).name = s.name) :
    (m.updateSection n f).DistinctSections := by
  have hnames := map_key_update Section.name n f (fun s hs => (hf s).trans hs) m.sections
  exact (congrArg List.Nodup hnames).mpr h

/-- A step that adds bytes at the end of a section, which it may have to create, and changes nothing
else but perhaps the alignment of that section. -/
structure Appends (n : Name) (bs : List UInt8) (m m' : Module) : Prop where
  contents : m'.contentsOf n = m.contentsOf n ++ bs
  present : (m'.section? n).isSome
  address : ∀ s, m.section? n = some s →
    (m'.section? n).map Section.virtualAddress = some s.virtualAddress
  others : ∀ n', n' ≠ n → m'.section? n' = m.section? n'
  order : m'.order = m.order
  symbols : m'.symbols = m.symbols
  references : m'.references = m.references
  finalized : m'.finalized = m.finalized
  failed : m'.failed = m.failed
  distinct : m.DistinctSections → m'.DistinctSections

namespace Appends

variable {n : Name} {bs cs : List UInt8} {m m' m'' : Module}

theorem trans (h : Appends n bs m m') (h' : Appends n cs m' m'') : Appends n (bs ++ cs) m m'' where
  contents := by rw [h'.contents, h.contents, List.append_assoc]
  present := h'.present
  address s hs := by
    obtain ⟨s', hs'⟩ := Option.isSome_iff_exists.mp h.present
    have ha := h.address s hs
    rw [hs', Option.map_some, Option.some.injEq] at ha
    rw [h'.address s' hs', ha]
  others n' hn := (h'.others n' hn).trans (h.others n' hn)
  order := h'.order.trans h.order
  symbols := h'.symbols.trans h.symbols
  references := h'.references.trans h.references
  finalized := h'.finalized.trans h.finalized
  failed := h'.failed.trans h.failed
  distinct hd := h'.distinct (h.distinct hd)

theorem offset (h : Appends n bs m m') : m'.offset n = m.offset n + bs.length := by
  rw [← length_contentsOf, h.contents, List.length_append, length_contentsOf]

theorem isSome (h : Appends n bs m m') {k : Name} (hk : (m.section? k).isSome) :
    (m'.section? k).isSome := by
  by_cases hn : k = n
  · exact hn ▸ h.present
  · rwa [h.others k hn]

theorem isSectionName (h : Appends n bs m m') (k : Name) (hk : m.isSectionName k) :
    m'.isSectionName k := by
  unfold Module.isSectionName at hk ⊢
  rw [Bool.or_eq_true] at hk ⊢
  exact hk.imp_left h.isSome

theorem contentsOf_other (h : Appends n bs m m') {n' : Name} (hn : n' ≠ n) :
    m'.contentsOf n' = m.contentsOf n' := by
  simp only [contentsOf, h.others n' hn]

theorem refl {s : Section} (h : m.section? n = some s) : Appends n [] m m where
  contents := by simp
  present := by simp [h]
  address t ht := by simp [ht]
  others _ _ := rfl
  order := rfl
  symbols := rfl
  references := rfl
  finalized := rfl
  failed := rfl
  distinct := id

theorem of_update {s : Section} (hs : m.section? n = some s) {f : Section → Section}
    (hn : ∀ s, (f s).name = s.name) (ha : (f s).virtualAddress = s.virtualAddress)
    (hc : (f s).contents = s.contents ++ bs) : Appends n bs m (m.updateSection n f) := by
  have hu : (m.updateSection n f).section? n = some (f s) := by
    rw [section?_updateSection m n n f hn, if_pos rfl, hs, Option.map_some]
  refine ⟨?_, by simp [hu], fun t ht => ?_, fun n' hn' => ?_, rfl, rfl, rfl, rfl, rfl,
    fun hd => hd.updateSection n hn⟩
  · rw [contentsOf_eq hu, contentsOf_eq hs, hc]
  · rw [hs] at ht
    cases ht
    rw [hu, Option.map_some, ha]
  · rw [section?_updateSection m n n' f hn, if_neg hn']

end Appends

theorem section?_append_new {m : Module} {s : Section} (h : m.section? s.name = none) (n : Name) :
    ({ m with sections := m.sections ++ [s] } : Module).section? n =
      if n = s.name then some s else m.section? n :=
  find?_append_new h n

theorem perform_ite_checkMutable {α : Type} {m m' : Module} {e : Edit α} {a : α}
    (h : m.perform (checkMutable >>= fun _ => e) = .ok (a, m')) : m.perform e = .ok (a, m') := by
  rw [perform_bind, perform_checkMutable] at h
  obtain ⟨u, hu, h⟩ := except_bind_eq_ok.mp h
  split at hu
  · cases hu
  · cases hu
    exact h

section Steps

variable {m m' : Module} {n : Name}

theorem addSection_eq_ok {flags : SectionFlags} {s : Section}
    (h : m.perform (addSection n flags) = .ok (s, m')) :
    m.section? n = some s ∧ m' = m ∨ m.section? n = none ∧ s = ⟨n, flags, 0, 0, .empty⟩ ∧
      m' = { m with sections := m.sections ++ [s] } := by
  rw [addSection, perform_bind, perform_get, Except.bind] at h
  dsimp only at h
  split at h
  · next hs =>
    cases h
    exact .inl ⟨hs, rfl⟩
  · next hs =>
    cases perform_ite_checkMutable h
    exact .inr ⟨hs, rfl, rfl⟩

theorem append_eq_ok {bytes : ByteArray} {k : Nat}
    (h : m.perform (append n bytes) = .ok (k, m')) :
    ∃ s m₁, m.perform (addSection n (standardFlags n)) = .ok (s, m₁) ∧ k = s.length ∧
      m' = m₁.updateSection n (·.append bytes) := by
  have h := perform_ite_checkMutable h
  rw [perform_bind] at h
  obtain ⟨⟨s, m₁⟩, hs, h⟩ := except_bind_eq_ok.mp h
  rw [perform_bind, perform_modify] at h
  cases h
  exact ⟨s, m₁, hs, rfl, rfl⟩

theorem reserve_eq_ok {count : Int} {k : Nat}
    (h : m.perform (reserve n count) = .ok (k, m')) :
    m.perform (append n (zeroBytes count.toNat)) = .ok (k, m') := by
  rw [reserve] at h
  split at h
  · cases h
  · split at h
    · cases h
    · exact h

/-- All that aligning can do: raise the alignment of the section, and then fill the section up
unless it ends at such a place already. -/
theorem align_eq_ok {boundary : Nat} {u : Unit}
    (h : m.perform (align n boundary) = .ok (u, m')) :
    boundary ≤ maxAlignment ∧
      ∃ s m₁ m₂, m.perform (addSection n (standardFlags n)) = .ok (s, m₁) ∧
        m₂ = m₁.updateSection n (fun s => { s with alignment := max s.alignment boundary }) ∧
        (s.length % blockSize boundary = 0 ∧ m' = m₂ ∨
          ∃ k, s.length % blockSize boundary ≠ 0 ∧ m₂.perform
            (reserve n (blockSize boundary - s.length % blockSize boundary : Nat)) = .ok (k, m')) := by
  rw [align] at h
  split at h
  · cases h
  · next hb =>
    dsimp only at h
    rw [perform_bind] at h
    obtain ⟨⟨s, m₁⟩, hs, h⟩ := except_bind_eq_ok.mp h
    rw [perform_bind, perform_modify, Except.bind] at h
    dsimp only at h
    refine ⟨Nat.not_lt.mp hb, s, m₁, _, hs, rfl, ?_⟩
    split at h
    · next hexcess =>
      rw [perform_discard] at h
      obtain ⟨⟨k, m₂⟩, hr, heq⟩ := except_map_eq_ok.mp h
      cases heq
      exact .inr ⟨k, hexcess, hr⟩
    · next hexcess =>
      cases h
      exact .inl ⟨not_not.mp hexcess, rfl⟩

theorem appends_addSection {flags : SectionFlags} {s : Section}
    (h : m.perform (addSection n flags) = .ok (s, m')) :
    m'.section? n = some s ∧ Appends n [] m m' := by
  rcases addSection_eq_ok h with ⟨hs, rfl⟩ | ⟨hs, rfl, rfl⟩
  · exact ⟨hs, .refl hs⟩
  · have hnew := section?_append_new (m := m) (s := ⟨n, flags, 0, 0, .empty⟩) hs
    refine ⟨by simp [hnew], ⟨?_, ?_, ?_, ?_, rfl, rfl, rfl, rfl, rfl, fun hd => ?_⟩⟩
    · simp [contentsOf, hnew, hs, Section.contents]
    · simp [hnew]
    · simp [hs]
    · intro n' hn'
      rw [hnew, if_neg hn']
    · exact nodup_append_new hd hs

theorem length_addSection {flags : SectionFlags} {s : Section}
    (h : m.perform (addSection n flags) = .ok (s, m')) : s.length = m.offset n := by
  obtain ⟨hs, happ⟩ := appends_addSection h
  rw [← offset_of_section? hs, happ.offset]
  rfl

theorem appends_append {bytes : ByteArray} {k : Nat}
    (h : m.perform (append n bytes) = .ok (k, m')) :
    k = m.offset n ∧ Appends n bytes.data.toList m m' := by
  obtain ⟨s, m₁, hadd, rfl, rfl⟩ := append_eq_ok h
  obtain ⟨hs, happ⟩ := appends_addSection hadd
  exact ⟨length_addSection hadd,
    happ.trans (.of_update hs (fun _ => rfl) rfl (Section.contents_append _ _))⟩

theorem appends_appendWord {w : UInt32} {k : Nat}
    (h : m.perform (appendWord n w) = .ok (k, m')) :
    k = m.offset n ∧ Appends n (m.order.wordBytes w) m m' := by
  rw [appendWord, perform_bind, perform_get] at h
  have happ := appends_append h
  simpa using happ

theorem contents_zeroBytes (k : Nat) : (zeroBytes k).data.toList = List.replicate k 0 := by
  have hrun : ∀ (k : Nat) (bs : ByteArray),
      (k.repeat (·.push 0) bs).data.toList = bs.data.toList ++ List.replicate k 0 := by
    intro k bs
    induction k with
    | zero => simp [Nat.repeat]
    | succ k ih => simp [Nat.repeat, ih, List.replicate_succ', ← List.append_assoc]
  exact hrun k _

theorem appends_reserve {count : Int} {k : Nat}
    (h : m.perform (reserve n count) = .ok (k, m')) :
    Appends n (List.replicate count.toNat 0) m m' := by
  rw [← contents_zeroBytes]
  exact (appends_append (reserve_eq_ok h)).2

theorem appends_align {boundary : Nat} {u : Unit}
    (h : m.perform (align n boundary) = .ok (u, m')) :
    (∃ k, Appends n (List.replicate k 0) m m') ∧ blockSize boundary ∣ m'.offset n ∧
      m'.offset n < m.offset n + blockSize boundary := by
  obtain ⟨-, s, m₁, m₂, hadd, rfl, hfill⟩ := align_eq_ok h
  obtain ⟨hs, happ⟩ := appends_addSection hadd
  rw [length_addSection hadd] at hfill
  -- The section is created and its alignment raised before anything is filled in, which shows in
  -- no byte.
  have hal : Appends n [] m (m₁.updateSection n
      fun s => { s with alignment := max s.alignment boundary }) :=
    happ.trans (.of_update hs (fun _ => rfl) rfl (by simp [Section.contents]))
  rcases hfill with ⟨hexcess, rfl⟩ | ⟨k, hexcess, hr⟩
  · have hend := hal.offset
    rw [List.length_nil, Nat.add_zero] at hend
    have hpos := blockSize_pos boundary
    refine ⟨⟨0, hal⟩, ?_, by omega⟩
    rw [hend]
    exact Nat.dvd_of_mod_eq_zero hexcess
  · have hfilled := hal.trans (appends_reserve hr)
    rw [List.nil_append, Int.toNat_natCast] at hfilled
    have hlt := Nat.mod_lt (m.offset n) (blockSize_pos boundary)
    have hend : m'.offset n = m.offset n + _ := hfilled.offset
    rw [List.length_replicate] at hend
    have hpos : m'.offset n < m.offset n + blockSize boundary := by omega
    refine ⟨⟨_, hfilled⟩, Nat.dvd_of_mod_eq_zero ?_, hpos⟩
    rw [hend, ← Nat.add_sub_assoc (Nat.le_of_lt hlt), Nat.add_comm,
      Nat.add_sub_assoc (Nat.mod_le _ _), Nat.add_mod_left]
    exact Nat.sub_mod_eq_zero_of_mod_eq (Nat.mod_mod _ _).symm

end Steps

structure KeepsContents (m m' : Module) : Prop where
  sections : m'.sections = m.sections
  references : m'.references = m.references
  order : m'.order = m.order

namespace KeepsContents

theorem refl (m : Module) : KeepsContents m m := ⟨rfl, rfl, rfl⟩

theorem trans {m m' m'' : Module} (h : KeepsContents m m') (h' : KeepsContents m' m'') :
    KeepsContents m m'' :=
  ⟨h'.sections.trans h.sections, h'.references.trans h.references, h'.order.trans h.order⟩

theorem section? {m m' : Module} (h : KeepsContents m m') (n : Name) :
    m'.section? n = m.section? n := by
  simp only [Module.section?, h.sections]

theorem isSectionName {m m' : Module} (h : KeepsContents m m') (n : Name) :
    m'.isSectionName n = m.isSectionName n :=
  isSectionName_congr h.sections n

theorem offset {m m' : Module} (h : KeepsContents m m') (n : Name) : m'.offset n = m.offset n := by
  simp only [Module.offset, h.section?]

end KeepsContents

theorem tryDefine_eq_ok {m m' : Module} {n : Name} {type : SymbolType} {address : Option Address}
    {origin : Source.Location} {b : Bool}
    (h : m.perform (tryDefine n type address origin) = .ok (b, m')) :
    m' = m ∨ m.symbol? n = none ∧
      m' = { m with symbols := m.symbols ++ [⟨n, type, .internal, address, false, origin⟩] } := by
  rw [tryDefine, perform_bind, perform_get, Except.bind] at h
  dsimp only at h
  split at h
  · cases h
    exact .inl rfl
  · next hnone =>
    cases perform_ite_checkMutable h
    exact .inr ⟨by simpa using hnone, rfl⟩

/-- All that a definition can do: nothing, add the symbol, or complete a symbol that is known. -/
theorem define_eq_ok {m m' : Module} {n : Name} {type : SymbolType} {address : Address}
    {origin : Source.Location} {b : Bool}
    (h : m.perform (define n type address origin) = .ok (b, m')) :
    (b = false ∧ ∃ s, m.symbol? n = some s ∧ s.isDefined) ∧ m' = m ∨ m.symbol? n = none ∧
      m' = { m with symbols := m.symbols ++ [⟨n, type, .internal, some address, false, origin⟩] } ∨
    ∃ s, m.symbol? n = some s ∧ s.isDefined = false ∧ m' = m.updateSymbol n fun s =>
      { s with type := type, address := some address, origin := origin } := by
  rw [define, perform_bind, perform_get, Except.bind] at h
  dsimp only at h
  split at h
  · next hnone =>
    rw [tryDefine, perform_bind, perform_get, Except.bind] at h
    dsimp only at h
    rw [hnone] at h
    cases perform_ite_checkMutable h
    exact .inr (.inl ⟨hnone, rfl⟩)
  · next s hs =>
    split at h
    · next hdefined =>
      cases h
      exact .inl ⟨⟨rfl, s, hs, hdefined⟩, rfl⟩
    · next hundefined =>
      cases perform_ite_checkMutable h
      exact .inr (.inr ⟨s, hs, by simpa using hundefined, rfl⟩)

theorem declare_eq_ok {m m' : Module} {n : Name} {binding : Binding} {b : Bool}
    (h : m.perform (declare n binding) = .ok (b, m')) :
    (b = false ∧ binding = .internal) ∧ m' = m ∨
      m.symbol? n = none ∧ m' = ({ m with symbols := m.symbols ++ [.mention n] } :
        Module).updateSymbol n ({ · with binding := binding }) ∨
      (m.symbol? n).isSome ∧ m' = m.updateSymbol n ({ · with binding := binding }) := by
  have h := perform_ite_checkMutable h
  rw [perform_bind, perform_get, Except.bind] at h
  dsimp only at h
  split at h
  · next hnone =>
    cases h
    exact .inr (.inl ⟨hnone, rfl⟩)
  · next s hs =>
    split at h
    · next hhidden =>
      cases h
      rw [Bool.and_eq_true, beq_iff_eq] at hhidden
      exact .inl ⟨⟨rfl, hhidden.2⟩, rfl⟩
    · cases h
      exact .inr (.inr ⟨by rw [hs]; rfl, rfl⟩)

theorem track_eq_ok {m m' : Module} {r : Reference} {u : Unit}
    (h : m.perform (track r) = .ok (u, m')) :
    (m.isSectionName r.symbol ∨ (m.symbol? r.symbol).isSome) ∧
        m' = { m with references := m.references ++ [r] } ∨
      m.symbol? r.symbol = none ∧ m.isSectionName r.symbol = false ∧
        m' = { m with
          symbols := m.symbols ++ [.mention r.symbol], references := m.references ++ [r] } := by
  have h := perform_ite_checkMutable h
  rw [perform_bind, perform_get, Except.bind] at h
  dsimp only at h
  split at h
  · next hnew =>
    cases h
    simp only [Bool.and_eq_true, Option.isNone_iff_eq_none, Bool.not_eq_true'] at hnew
    exact .inr ⟨hnew.1, hnew.2, rfl⟩
  · next hold =>
    cases h
    refine .inl ⟨?_, rfl⟩
    cases hs : m.symbol? r.symbol with
    | none => simpa [hs] using hold
    | some s => exact .inr rfl

theorem keepsContents_tryDefine {m m' : Module} {n : Name} {type : SymbolType}
    {address : Option Address} {origin : Source.Location} {b : Bool}
    (h : m.perform (tryDefine n type address origin) = .ok (b, m')) : KeepsContents m m' := by
  rcases tryDefine_eq_ok h with rfl | ⟨-, rfl⟩ <;> exact ⟨rfl, rfl, rfl⟩

theorem keepsContents_define {m m' : Module} {n : Name} {type : SymbolType} {address : Address}
    {origin : Source.Location} {b : Bool}
    (h : m.perform (define n type address origin) = .ok (b, m')) : KeepsContents m m' := by
  rcases define_eq_ok h with ⟨-, rfl⟩ | ⟨-, rfl⟩ | ⟨s, -, -, rfl⟩ <;> exact ⟨rfl, rfl, rfl⟩

theorem keepsContents_declare {m m' : Module} {n : Name} {binding : Binding} {b : Bool}
    (h : m.perform (declare n binding) = .ok (b, m')) : KeepsContents m m' := by
  rcases declare_eq_ok h with ⟨-, rfl⟩ | ⟨-, rfl⟩ | ⟨-, rfl⟩ <;> exact ⟨rfl, rfl, rfl⟩

theorem perform_track {m m' : Module} {r : Reference} {u : Unit}
    (h : m.perform (track r) = .ok (u, m')) :
    m'.sections = m.sections ∧ m'.order = m.order ∧ m'.references = m.references ++ [r] := by
  rcases track_eq_ok h with ⟨-, rfl⟩ | ⟨-, -, rfl⟩ <;> exact ⟨rfl, rfl, rfl⟩

end MipsToolchain.Module
