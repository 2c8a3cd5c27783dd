import MipsToolchain.Proofs.Assembly.Moves
import MipsToolchain.Proofs.Encoding.Steps
import Mathlib.Data.List.Iterate

namespace MipsToolchain

namespace Module

def InWord (places : List Address) (n : Name) (k : Nat) : Prop :=
  ∃ o, Address.inSection n o ∈ places ∧ o ≤ k ∧ k < o + 4

/-- What may happen to a module as long as its uninitialised sections get nothing but zero bytes and
words at some places. -/
structure Fills (places : List Address) (m m' : Module) : Prop where
  present : ∀ n, (m.section? n).isSome → (m'.section? n).isSome
  flags : ∀ n, (m.section? n).isSome → m'.flagsOf n = m.flagsOf n
  bytes : ∀ n, (m'.flagsOf n).nobits → ∀ k b, m'.byte? n k = some b →
    m.byte? n k = some b ∨ b = 0 ∨ InWord places n k
  references : ∀ r ∈ m'.references, r ∈ m.references ∨
    (m'.section? r.location.sectionName).isSome ∧
      ((m'.flagsOf r.location.sectionName).nobits → r.location ∈ places)

theorem isSome_of_byte? {m : Module} {n : Name} {k : Nat} {b : UInt8}
    (h : m.byte? n k = some b) : (m.section? n).isSome := by
  have hk := lt_offset_of_byte? h
  exact section?_of_lt_offset hk

namespace Fills

variable {places ps qs : List Address} {m m' m'' : Module} {n : Name} {bs : List UInt8}

theorem refl (m : Module) : Fills [] m m :=
  ⟨fun _ => id, fun _ _ => rfl, fun _ _ _ _ => .inl, fun _ => .inl⟩

theorem trans (h : Fills ps m m') (h' : Fills qs m' m'') : Fills (ps ++ qs) m m'' where
  present n hn := h'.present n (h.present n hn)
  flags n hn := (h'.flags n (h.present n hn)).trans (h.flags n hn)
  bytes n hf k b hb := by
    rcases h'.bytes n hf k b hb with hb' | hzero | ⟨o, ho, hk⟩
    · rw [h'.flags n (isSome_of_byte? hb')] at hf
      rcases h.bytes n hf k b hb' with hold | hzero | ⟨o, ho, hk⟩
      · exact .inl hold
      · exact .inr (.inl hzero)
      · exact .inr (.inr ⟨o, List.mem_append_left _ ho, hk⟩)
    · exact .inr (.inl hzero)
    · exact .inr (.inr ⟨o, List.mem_append_right _ ho, hk⟩)
  references r hr := by
    rcases h'.references r hr with hr' | ⟨hsome, hplace⟩
    · rcases h.references r hr' with hold | ⟨hsome, hplace⟩
      · exact .inl hold
      · refine .inr ⟨h'.present _ hsome, fun hf => List.mem_append_left _ (hplace ?_)⟩
        rwa [h'.flags _ hsome] at hf
    · exact .inr ⟨hsome, fun hf => List.mem_append_right _ (hplace hf)⟩

theorem of_keepsContents (h : KeepsContents m m') : Fills [] m m' where
  present n hn := h.section? n ▸ hn
  flags n _ := flagsOf_congr h.sections n
  bytes n _ k b hb := by
    rw [byte?_eq_contentsOf, contentsOf, h.section?] at hb
    exact .inl ((byte?_eq_contentsOf m n k).trans hb)
  references r hr := .inl (h.references ▸ hr)

/-- Bytes at the end of a section are harmless where they are zero, and where contents belong. -/
theorem of_appends (h : Appends n bs m m')
    (hf : ∀ k, (m.section? k).isSome → m'.flagsOf k = m.flagsOf k)
    (hz : (m'.flagsOf n).nobits → ∀ b ∈ bs, b = 0) : Fills [] m m' where
  present _ := h.isSome
  flags := hf
  bytes k hnobits i b hb := by
    rw [byte?_eq_contentsOf] at hb
    by_cases hn : k = n
    · subst hn
      rw [h.contents, List.getElem?_append] at hb
      split at hb
      · exact .inl ((byte?_eq_contentsOf m k i).trans hb)
      · exact .inr (.inl (hz hnobits b (List.mem_of_getElem? hb)))
    · rw [h.contentsOf_other hn] at hb
      exact .inl ((byte?_eq_contentsOf m k i).trans hb)
  references r hr := .inl (h.references ▸ hr)

theorem settle (h : Fills ps m m')
    (hp : ∀ a ∈ ps, (m'.flagsOf a.sectionName).nobits = false) : Fills [] m m' where
  present := h.present
  flags := h.flags
  bytes n hf k b hb := by
    refine (h.bytes n hf k b hb).imp_right (Or.imp_right ?_)
    rintro ⟨o, ho, -⟩
    cases (hp _ ho).symm.trans hf
  references r hr := by
    refine (h.references r hr).imp_right (And.imp_right fun hplace hf => ?_)
    cases (hp _ (hplace hf)).symm.trans hf

theorem of_word {m₁ : Module} (hs : m₁.sections = m.sections) (h : Appends n bs m₁ m')
    (hf : ∀ k, m'.flagsOf k = m.flagsOf k) (hlen : bs.length = 4)
    (hr : ∀ r ∈ m'.references, r ∈ m.references ∨ r.location = .inSection n (m.offset n)) :
    Fills [.inSection n (m.offset n)] m m' where
  present k hk := h.isSome (by rwa [section?, hs])
  flags k _ := hf k
  bytes k _ i b hb := by
    have hc : ∀ k, m₁.contentsOf k = m.contentsOf k := fun k => by
      simp only [contentsOf, section?, hs]
    rw [byte?_eq_contentsOf] at hb ⊢
    by_cases hn : k = n
    · subst hn
      rw [h.contents, hc, List.getElem?_append] at hb
      split at hb
      · exact .inl hb
      · next hi =>
        obtain ⟨hlt, -⟩ := List.getElem?_eq_some_iff.mp hb
        rw [length_contentsOf] at hi hlt
        exact .inr (.inr ⟨_, List.mem_singleton_self _, by omega, by omega⟩)
    · rw [h.contentsOf_other hn, hc] at hb
      exact .inl hb
  references r hmem := by
    refine (hr r hmem).imp_right fun hloc => ?_
    rw [hloc]
    exact ⟨h.present, fun _ => List.mem_singleton_self _⟩

end Fills

end Module

namespace Environment

open Diagnostic Encoder MipsToolchain.Module

variable {env env₁ env' : Environment}

theorem fills_storeWord {tracked : Bool} {w : EncodedWord}
    (ht : trackWord tracked w env = .ok env₁)
    (ha : env₁.apply (appendWord env₁.current w.value) = .ok env')
    (hloc : ∀ r, w.reference = some r → r.location = env.location) :
    Fills [env.location] env.module env'.module := by
  obtain ⟨k, m', hm', rfl⟩ := apply_eq_ok ha
  obtain ⟨-, happ⟩ := appends_appendWord hm'
  have hlen : (env₁.module.order.wordBytes w.value).length = 4 := ByteOrder.length_wordBytes _ _
  have hflags := flagsOf_appendWord hm'
  rcases trackWord_eq_ok ht with ⟨rfl, -⟩ | ⟨r, u, m₁, -, hr, htrack, rfl⟩
  · exact .of_word rfl happ hflags hlen fun r hr => .inl (happ.references ▸ hr)
  · obtain ⟨hsec, -, href⟩ := perform_track htrack
    refine .of_word hsec happ (fun k => (hflags k).trans (flagsOf_congr hsec k)) hlen fun q hq => ?_
    rw [happ.references] at hq
    change q ∈ m₁.references at hq
    rw [href, List.mem_append, List.mem_singleton] at hq
    refine hq.imp_right fun hq => ?_
    rw [hq]
    exact hloc r hr

theorem fills_storeWords {tracked : Bool} {ws : List EncodedWord}
    (h : storeWords tracked ws env = .ok env') (hws : EncodedWord.WellEncoded env.location ws) :
    Fills (List.iterate (·.add 4) env.location ws.length) env.module env'.module := by
  induction ws generalizing env with
  | nil =>
    cases h
    exact .refl _
  | cons w ws ih =>
    rw [storeWords_cons] at h
    obtain ⟨env₁, ht, h⟩ := except_bind_eq_ok.mp h
    obtain ⟨env₂, ha, h⟩ := except_bind_eq_ok.mp h
    obtain ⟨hfits, -, hws⟩ := hws
    have hloc := fun r hr => (hfits r hr).1
    obtain ⟨-, hplace, -⟩ := storeWord_spec ht ha hloc
    have hrest := ih h (hplace ▸ hws)
    rw [hplace] at hrest
    exact (fills_storeWord ht ha hloc).trans hrest

theorem map_fst_placed (loc : Address) (ss : List MachineStep) :
    (placed loc ss).map Prod.fst = List.iterate (·.add 4) loc ss.length := by
  induction ss generalizing loc with
  | nil => rfl
  | cons s ss ih => rw [placed, List.map_cons, ih, List.length_cons, List.iterate]

theorem sectionName_of_mem_iterate {loc a : Address} {k : Nat}
    (h : a ∈ List.iterate (·.add 4) loc k) : a.sectionName = loc.sectionName := by
  induction k generalizing loc with
  | zero => cases h
  | succ k ih =>
    rw [List.iterate, List.mem_cons] at h
    rcases h with rfl | h
    · rfl
    · exact (ih h).trans rfl

theorem Move.fills (h : Move .data env env') : Fills [] env.module env'.module := by
  cases h with
  | align h =>
    obtain ⟨u, m, hm, rfl⟩ := apply_eq_ok h
    obtain ⟨⟨k, hk⟩, -⟩ := appends_align hm
    exact .of_appends hk (fun n _ => flagsOf_align hm n) fun _ b => List.eq_of_mem_replicate
  | reserve h =>
    obtain ⟨o, m, hm, rfl⟩ := apply_eq_ok h
    exact .of_appends (appends_reserve hm) (fun n _ => flagsOf_reserve hm n) fun _ b =>
      List.eq_of_mem_replicate
  | append hf h =>
    obtain ⟨o, m, hm, rfl⟩ := apply_eq_ok h
    refine .of_appends (appends_append hm).2 (fun n _ => flagsOf_append hm n) fun hnobits => ?_
    rw [flags_eq, ← flagsOf_append hm] at hf
    cases hf.symm.trans hnobits
  -- Uninitialised sections only store words of code, whose places do not count elsewhere.
  | store _ hf _ hws _ h =>
    refine (fills_storeWords h hws).settle fun a ha => ?_
    rw [sectionName_of_mem_iterate ha, flagsOf_storeWords h]
    exact (flags_eq env) ▸ hf rfl
  | switch _ _ h =>
    obtain ⟨env₁, ha, rfl⟩ := except_map_eq_ok.mp h
    obtain ⟨s, m, hm, rfl⟩ := apply_eq_ok ha
    refine .of_appends (appends_addSection hm).2 (fun n hn => ?_) fun _ b hb => by cases hb
    rw [flagsOf_addSection hm, if_neg]
    rintro ⟨hnone, rfl⟩
    rw [hnone] at hn
    cases hn
  | define _ _ h =>
    obtain ⟨m, hm, rfl⟩ := edit_eq_ok h
    exact .of_keepsContents (keepsContents_define hm)
  | declare _ _ h =>
    obtain ⟨m, hm, rfl⟩ := edit_eq_ok h
    exact .of_keepsContents (keepsContents_declare hm)
  | option => exact .refl _

theorem MovesBy.fills (h : MovesBy .data env env') : Fills [] env.module env'.module := by
  induction h with
  | refl => exact .refl env.module
  | tail _ hmove ih => exact ih.trans hmove.fills

end Environment

end MipsToolchain
