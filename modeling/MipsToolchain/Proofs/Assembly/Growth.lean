import MipsToolchain.Assembly.Assemble
import MipsToolchain.Proofs.Object.Building
import MipsToolchain.Proofs.Object.Relocation

namespace MipsToolchain

namespace Module

/-- The length of every section is a signed number of 64 bits, which is what the length of bytes in
memory always is. -/
def Sized (m : Module) : Prop := ∀ n, m.offset n < 0x8000000000000000

/-- What a module keeps while its lines are assembled. Bytes are only added, and a new reference is
about a word that is new. -/
structure Grows (m m' : Module) : Prop where
  order : m'.order = m.order
  sections : ∀ n, m.isSectionName n → m'.isSectionName n
  contents : ∀ n, m.contentsOf n <+: m'.contentsOf n
  references : ∃ rs, m'.references = m.references ++ rs ∧ (m'.Sized →
    rs.Pairwise Reference.Disjoint ∧ ∀ r ∈ rs,
      m.offset r.location.sectionName ≤ r.location.offset ∧
      r.location.offset + 4 ≤ m'.offset r.location.sectionName)

namespace Grows

variable {m m' m'' : Module}

theorem offset_le (h : Grows m m') (n : Name) : m.offset n ≤ m'.offset n := by
  rw [← length_contentsOf, ← length_contentsOf]
  exact (h.contents n).length_le

theorem sized (h : Grows m m') (hs : m'.Sized) : m.Sized := fun n =>
  Nat.lt_of_le_of_lt (h.offset_le n) (hs n)

theorem refl (m : Module) : Grows m m :=
  ⟨rfl, fun _ => id, fun _ => List.prefix_rfl, [], by simp, fun _ => by simp⟩

-- An old reference ends where its section ended before, and a new one does not start earlier.
theorem trans (h : Grows m m') (h' : Grows m' m'') : Grows m m'' := by
  obtain ⟨rs, hrs, hr⟩ := h.references
  obtain ⟨qs, hqs, hq⟩ := h'.references
  refine ⟨h'.order.trans h.order, fun n hn => h'.sections n (h.sections n hn),
    fun n => (h.contents n).trans (h'.contents n), rs ++ qs,
    by rw [hqs, hrs, List.append_assoc], fun hs => ?_⟩
  obtain ⟨hdr, hbr⟩ := hr (h'.sized hs)
  obtain ⟨hdq, hbq⟩ := hq hs
  refine ⟨List.pairwise_append.mpr ⟨hdr, hdq, fun r hr q hq hn => .inl ?_⟩, fun r hr => ?_⟩
  · have hle := (hbr r hr).2
    rw [hn] at hle
    exact hle.trans (hbq q hq).1
  · rcases List.mem_append.mp hr with hr | hr
    · exact ⟨(hbr r hr).1, (hbr r hr).2.trans (h'.offset_le _)⟩
    · exact ⟨(h.offset_le _).trans (hbq r hr).1, (hbq r hr).2⟩

theorem of_keepsContents (h : KeepsContents m m') : Grows m m' := by
  have hc : ∀ n, m'.contentsOf n = m.contentsOf n := fun n => by
    simp only [contentsOf, h.section?]
  refine ⟨h.order, fun n hn => (h.isSectionName n).trans hn, fun n => ?_, [],
    by simp [h.references], fun _ => by simp⟩
  simp only [hc, List.prefix_rfl]

theorem of_appends {n : Name} {bs : List UInt8} (h : Appends n bs m m') : Grows m m' := by
  refine ⟨h.order, h.isSectionName, fun n' => ?_, [], by simp [h.references], fun _ => by simp⟩
  by_cases hn : n' = n
  · subst hn
    rw [h.contents]
    exact List.prefix_append _ _
  · simp only [h.contentsOf_other hn, List.prefix_rfl]

end Grows

def place (m : Module) (n : Name) : Address := .relative n (Int64.ofNat (m.offset n))

theorem toInt_place {m : Module} (h : m.Sized) (n : Name) :
    (m.place n).value.toInt = m.offset n :=
  Address.toInt_inSection (h n)

theorem offset_place {m : Module} (h : m.Sized) (n : Name) : (m.place n).offset = m.offset n :=
  Address.offset_inSection (h n)

theorem nonneg_place {m : Module} (h : m.Sized) (n : Name) : 0 ≤ (m.place n).value.toInt := by
  rw [toInt_place h]
  exact Int.natCast_nonneg _

theorem grows_of_track {m m₁ m' : Module} {n : Name} {bs : List UInt8} {r : Reference} {u : Unit}
    (ht : m.perform (track r) = .ok (u, m₁)) (hr : r.location = m.place n)
    (ha : Appends n bs m₁ m') (hb : 4 ≤ bs.length) : Grows m m' := by
  obtain ⟨hsec, hord, href⟩ := perform_track ht
  have hs : ∀ n, m₁.section? n = m.section? n := fun n => by simp only [section?, hsec]
  have hc : ∀ n, m₁.contentsOf n = m.contentsOf n := fun n => by simp only [contentsOf, hs]
  have ho : m₁.offset n = m.offset n := by rw [← length_contentsOf, hc, length_contentsOf]
  have hnames := fun n' hn => ha.isSectionName n' ((isSectionName_congr hsec n').trans hn)
  refine ⟨ha.order.trans hord, hnames, fun n' => ?_, [r], by rw [ha.references, href],
    fun hsized => ?_⟩
  · rw [← hc]
    exact (Grows.of_appends ha).contents n'
  · have hsm : m.Sized := fun n' => by
      rw [← length_contentsOf, ← hc, length_contentsOf]
      exact (Grows.of_appends ha).sized hsized n'
    refine ⟨List.pairwise_singleton _ _, fun q hq => ?_⟩
    rw [List.mem_singleton.mp hq]
    have hn : r.location.sectionName = n := by
      rw [hr]
      rfl
    rw [hn, hr, offset_place hsm, ha.offset, ho]
    omega

/-- Whether a word stands at a place, with its reference if it has one, and is else left alone by all
references. -/
structure Stored (m : Module) (loc : Address) (w : EncodedWord) : Prop where
  inside : 0 ≤ loc.value.toInt
  word : m.wordIn? m.order loc.sectionName loc.offset = some w.value
  tracked : ∀ r, w.reference = some r → r ∈ m.references
  untouched : w.reference = none →
    ∀ q ∈ m.references, ∀ j < 4, ¬ q.Covers loc.sectionName (loc.offset + j)

def Bounded (m : Module) : Prop :=
  ∀ q ∈ m.references, q.location.offset + 4 ≤ m.offset q.location.sectionName

namespace Grows

variable {m m' : Module}

theorem bounded (h : Grows m m') (hs : m'.Sized) (hb : m.Bounded) : m'.Bounded := by
  obtain ⟨rs, hrs, hr⟩ := h.references
  intro q hq
  rw [hrs] at hq
  rcases List.mem_append.mp hq with hq | hq
  · exact (hb q hq).trans (h.offset_le _)
  · exact ((hr hs).2 q hq).2

theorem byte?_eq (h : Grows m m') {n : Name} {k : Nat} (hk : k < m.offset n) :
    m'.byte? n k = m.byte? n k := by
  obtain ⟨bs, hbs⟩ := h.contents n
  rw [byte?_eq_contentsOf, byte?_eq_contentsOf, ← hbs, List.getElem?_append_left]
  rwa [length_contentsOf]

theorem word (h : Grows m m') {o : ByteOrder} {n : Name} {k : Nat} {w : UInt32}
    (hw : m.wordIn? o n k = some w) : m'.wordIn? o n k = some w := by
  have hk := le_offset_of_wordIn? hw
  rw [← hw]
  exact wordIn?_congr fun i hi => h.byte?_eq (by omega)

theorem stored (h : Grows m m') (hs : m'.Sized) {loc : Address} {w : EncodedWord}
    (hw : m.Stored loc w) : m'.Stored loc w := by
  obtain ⟨rs, hrs, hr⟩ := h.references
  refine ⟨hw.inside, ?_, fun r hr => ?_, fun hnone q hq j hj => ?_⟩
  · rw [h.order]
    exact h.word hw.word
  · rw [hrs]
    exact List.mem_append_left _ (hw.tracked r hr)
  · rw [hrs] at hq
    rcases List.mem_append.mp hq with hq | hq
    · exact hw.untouched hnone q hq j hj
    · rintro ⟨hn, hle, -⟩
      have hfresh := ((hr hs).2 q hq).1
      have hold := le_offset_of_wordIn? hw.word
      rw [hn] at hfresh
      omega

end Grows

theorem Appends.word {m m' : Module} {n : Name} {w : UInt32}
    (h : Appends n (m.order.wordBytes w) m m') :
    m'.wordIn? m'.order n (m.offset n) = some w := by
  have hb : ∀ i < 4, m'.byte? n (m.offset n + i) = (m.order.wordBytes w)[i]? := fun i _ => by
    rw [byte?_eq_contentsOf, h.contents, List.getElem?_append_right, length_contentsOf,
      Nat.add_sub_cancel_left]
    rw [length_contentsOf]
    exact Nat.le_add_right _ _
  rw [h.order, wordIn?_eq_of_bytes (ByteOrder.length_wordBytes _ _) hb, ByteOrder.ofBytes_wordBytes]

theorem place_add {m m' : Module} {n : Name} (h : m'.offset n = m.offset n + 4) :
    m'.place n = (m.place n).add 4 := by
  rw [place, h]
  exact (Address.add_inSection n (m.offset n) 4).symm

end Module

namespace Environment

open MipsToolchain.Module Guarded

structure Advances (env env' : Environment) : Prop where
  grows : env.module.Grows env'.module
  named : env.current.isEmpty = false → env'.current.isEmpty = false

namespace Advances

variable {env env' env'' : Environment}

theorem refl (env : Environment) : Advances env env := ⟨.refl _, id⟩

theorem trans (h : Advances env env') (h' : Advances env' env'') : Advances env env'' :=
  ⟨h.grows.trans h'.grows, h'.named ∘ h.named⟩

theorem of_grows {m : Module} (h : env.module.Grows m) : Advances env { env with module := m } :=
  ⟨h, id⟩

end Advances

theorem edit_eq_ok {α : Type} {env env' : Environment} {e : Edit α} {a : α}
    (h : env.edit e = .ok (a, env')) :
    ∃ m, env.module.perform e = .ok (a, m) ∧ env' = { env with module := m } := by
  unfold edit at h
  split at h
  · next hm =>
    cases h
    exact ⟨_, hm, rfl⟩
  · cases h

theorem apply_eq_ok {α : Type} {env env' : Environment} {e : Edit α}
    (h : env.apply e = .ok env') :
    ∃ a m, env.module.perform e = .ok (a, m) ∧ env' = { env with module := m } := by
  obtain ⟨⟨a, env₁⟩, he, rfl⟩ := except_map_eq_ok.mp h
  obtain ⟨m, hm, rfl⟩ := edit_eq_ok he
  exact ⟨a, m, hm, rfl⟩

theorem advances_align {env env' : Environment} {boundary : Nat}
    (h : env.apply (align env.current boundary) = .ok env') : Advances env env' := by
  obtain ⟨u, m, hm, rfl⟩ := apply_eq_ok h
  obtain ⟨⟨bs, hbs⟩, -⟩ := appends_align hm
  exact .of_grows (.of_appends hbs)

theorem advances_reserve {env env' : Environment} {count : Int}
    (h : env.apply (reserve env.current count) = .ok env') : Advances env env' := by
  obtain ⟨u, m, hm, rfl⟩ := apply_eq_ok h
  exact .of_grows (.of_appends (appends_reserve hm))

theorem advances_switch {env env' : Environment} {n : Name} {flags : SectionFlags}
    (hn : n.isEmpty = false) (h : env.switch n flags = .ok env') : Advances env env' := by
  obtain ⟨env₁, ha, rfl⟩ := except_map_eq_ok.mp h
  obtain ⟨s, m, hm, rfl⟩ := apply_eq_ok ha
  exact ⟨.of_appends (appends_addSection hm).2, fun _ => hn⟩

theorem advances_append {env env' : Environment} {bytes : ByteArray}
    (h : env.apply (append env.current bytes) = .ok env') : Advances env env' := by
  obtain ⟨k, m, hm, rfl⟩ := apply_eq_ok h
  exact .of_grows (.of_appends (appends_append hm).2)

def trackWord (tracked : Bool) (w : EncodedWord) (env : Environment) : Except Fault Environment :=
  match w.reference with
  | some r => if tracked then env.apply (track r) else pure env
  | none => pure env

theorem storeWords_cons (tracked : Bool) (w : EncodedWord) (ws : List EncodedWord)
    (env : Environment) :
    storeWords tracked (w :: ws) env = trackWord tracked w env >>= fun env₁ =>
      env₁.apply (appendWord env₁.current w.value) >>= storeWords tracked ws := by
  rw [storeWords, trackWord]
  cases w.reference with
  | none => rfl
  | some r => cases tracked <;> rfl

theorem trackWord_eq_ok {tracked : Bool} {w : EncodedWord} {env env' : Environment}
    (h : trackWord tracked w env = .ok env') :
    env' = env ∧ (tracked = true → w.reference = none) ∨
    ∃ r u m, tracked = true ∧ w.reference = some r ∧ env.module.perform (track r) = .ok (u, m) ∧
      env' = { env with module := m } := by
  unfold trackWord at h
  split at h
  · next r hr =>
    split at h
    · next ht =>
      obtain ⟨u, m, hm, rfl⟩ := apply_eq_ok h
      exact .inr ⟨r, u, m, ht, hr, hm, rfl⟩
    · next ht =>
      cases h
      exact .inl ⟨rfl, fun h => absurd h ht⟩
  · next hr =>
    cases h
    exact .inl ⟨rfl, fun _ => hr⟩

theorem storeWord_spec {tracked : Bool} {w : EncodedWord} {env env₁ env' : Environment}
    (ht : trackWord tracked w env = .ok env₁)
    (ha : env₁.apply (appendWord env₁.current w.value) = .ok env')
    (hloc : ∀ r, w.reference = some r → r.location = env.location) :
    Advances env env' ∧ env'.location = env.location.add 4 ∧
      (tracked = true → env'.module.Sized → env.module.Bounded →
        env'.module.Stored env.location w) := by
  obtain ⟨k, m', hm', rfl⟩ := apply_eq_ok ha
  obtain ⟨-, happ⟩ := appends_appendWord hm'
  have hlen : (env₁.module.order.wordBytes w.value).length = 4 := ByteOrder.length_wordBytes _ _
  rcases trackWord_eq_ok ht with ⟨rfl, hnone⟩ | ⟨r, u, m₁, -, hr, htrack, rfl⟩
  · refine ⟨.of_grows (.of_appends happ), place_add (by rw [happ.offset, hlen]), ?_⟩
    intro htracked hs hb
    have hsized := (Grows.of_appends happ).sized hs
    have hplace : env₁.location.offset = env₁.module.offset env₁.current := offset_place hsized _
    refine ⟨nonneg_place hsized _, ?_, fun r hr => ?_, fun _ q hq j hj => ?_⟩
    · rw [hplace]
      exact happ.word
    · rw [hnone htracked] at hr
      cases hr
    -- References that were there are about words in front of the new one.
    · rw [happ.references] at hq
      rintro ⟨hn, -, hlt⟩
      have hle := hb q hq
      rw [hplace] at hlt
      rw [hn] at hle
      change _ ≤ env₁.module.offset env₁.current at hle
      omega
  · obtain ⟨hsec, hord, href⟩ := perform_track htrack
    have hoff : m₁.offset env.current = env.module.offset env.current := by
      simp only [Module.offset, Module.section?, hsec]
    have hgrows := grows_of_track htrack (hloc r hr) happ (by rw [hlen])
    refine ⟨.of_grows hgrows, place_add (by rw [happ.offset, hlen, hoff]), ?_⟩
    intro _ hs _
    have hplace : env.location.offset = m₁.offset env.current := by
      rw [hoff]
      exact offset_place (hgrows.sized hs) _
    refine ⟨nonneg_place (hgrows.sized hs) _, ?_, fun r' hr' => ?_, fun hnone => ?_⟩
    · rw [hplace]
      exact happ.word
    · rw [hr] at hr'
      cases hr'
      change r ∈ m'.references
      rw [happ.references]
      change r ∈ m₁.references
      rw [href]
      simp
    · rw [hr] at hnone
      cases hnone

structure Writes (tracked : Bool) (ws : List EncodedWord) (env env' : Environment) : Prop where
  current : env'.current = env.current
  order : env'.module.order = env.module.order
  contents : env'.module.contentsOf env.current =
    env.module.contentsOf env.current ++ ws.flatMap fun w => env.module.order.wordBytes w.value
  others : ∀ n, n ≠ env.current → env'.module.contentsOf n = env.module.contentsOf n
  references : env'.module.references =
    env.module.references ++ if tracked then ws.filterMap (·.reference) else []

theorem writes_trackWord {tracked : Bool} {w : EncodedWord} {env env₁ env' : Environment}
    (ht : trackWord tracked w env = .ok env₁)
    (ha : env₁.apply (appendWord env₁.current w.value) = .ok env') :
    Writes tracked [w] env env' := by
  obtain ⟨k, m', hm', rfl⟩ := apply_eq_ok ha
  obtain ⟨-, happ⟩ := appends_appendWord hm'
  rcases trackWord_eq_ok ht with ⟨rfl, hnone⟩ | ⟨r, u, m₁, htracked, hr, htrack, rfl⟩
  · refine ⟨rfl, happ.order, by simp [happ.contents], fun n hn => happ.contentsOf_other hn, ?_⟩
    change m'.references = _
    rw [happ.references]
    cases tracked with
    | true => simp [hnone rfl]
    | false => simp
  · obtain ⟨hsec, hord, href⟩ := perform_track htrack
    have hc : ∀ n, m₁.contentsOf n = env.module.contentsOf n := fun n => by
      simp only [contentsOf, Module.section?, hsec]
    refine ⟨rfl, happ.order.trans hord, ?_, fun n hn => (happ.contentsOf_other hn).trans (hc n), ?_⟩
    · change m'.contentsOf env.current = _
      rw [happ.contents]
      change m₁.contentsOf env.current ++ m₁.order.wordBytes w.value = _
      rw [hc, hord]
      simp
    · change m'.references = _
      rw [happ.references]
      change m₁.references = _
      rw [href, htracked]
      simp [hr]

theorem writes_storeWords {tracked : Bool} {ws : List EncodedWord} {env env' : Environment}
    (h : storeWords tracked ws env = .ok env') : Writes tracked ws env env' := by
  induction ws generalizing env with
  | nil =>
    cases h
    exact ⟨rfl, rfl, by simp, fun _ _ => rfl, by cases tracked <;> simp⟩
  | cons w ws ih =>
    rw [storeWords_cons] at h
    obtain ⟨env₁, ht, h⟩ := except_bind_eq_ok.mp h
    obtain ⟨env₂, ha, h⟩ := except_bind_eq_ok.mp h
    have hw := writes_trackWord ht ha
    have hws := ih h
    refine ⟨hws.current.trans hw.current, hws.order.trans hw.order, ?_, fun n hn => ?_, ?_⟩
    · have hc := hws.contents
      rw [hw.current, hw.contents, hw.order] at hc
      simpa using hc
    · rw [hws.others n (hw.current ▸ hn), hw.others n hn]
    · rw [hws.references, hw.references]
      cases tracked <;> simp [List.filterMap_cons]
      cases w.reference <;> simp

theorem wordBytes_getElem? (o : ByteOrder) (ws : List EncodedWord) {k : Nat} {w : EncodedWord}
    (h : ws[k]? = some w) {i : Nat} (hi : i < 4) :
    (ws.flatMap fun w => o.wordBytes w.value)[4 * k + i]? = (o.wordBytes w.value)[i]? := by
  induction ws generalizing k with
  | nil => cases h
  | cons w' ws ih =>
    have hlen : (o.wordBytes w'.value).length = 4 := ByteOrder.length_wordBytes _ _
    rw [List.flatMap_cons]
    cases k with
    | zero =>
      cases h
      rw [Nat.mul_zero, Nat.zero_add, List.getElem?_append_left (by omega)]
    | succ k =>
      rw [List.getElem?_append_right (by omega), hlen, ← ih h]
      congr 1
      omega

theorem Writes.word {tracked : Bool} {ws : List EncodedWord} {env env' : Environment}
    (h : Writes tracked ws env env') {k : Nat} {w : EncodedWord} (hw : ws[k]? = some w) :
    env'.module.wordIn? env'.module.order env.current (env.module.offset env.current + 4 * k) =
      some w.value := by
  have hb : ∀ i < 4, env'.module.byte? env.current (env.module.offset env.current + 4 * k + i) =
      (env.module.order.wordBytes w.value)[i]? := by
    intro i hi
    rw [byte?_eq_contentsOf, h.contents, Nat.add_assoc, List.getElem?_append_right,
      length_contentsOf, Nat.add_sub_cancel_left, wordBytes_getElem? _ _ hw hi]
    rw [length_contentsOf]
    exact Nat.le_add_right _ _
  rw [h.order, wordIn?_eq_of_bytes (ByteOrder.length_wordBytes _ _) hb, ByteOrder.ofBytes_wordBytes]

theorem Writes.offset {tracked : Bool} {ws : List EncodedWord} {env env' : Environment}
    (h : Writes tracked ws env env') :
    env'.module.offset env.current = env.module.offset env.current + 4 * ws.length := by
  rw [← length_contentsOf, h.contents, List.length_append, length_contentsOf, List.length_flatMap]
  simp only [ByteOrder.length_wordBytes, List.map_const', List.sum_replicate_nat, Nat.mul_comm]

end Environment

end MipsToolchain
