import MipsToolchain.Proofs.Link.Patching
import MipsToolchain.Proofs.Object.Building

namespace MipsToolchain

namespace Layout

open MipsToolchain.Module

def partStart? (l : Layout) (n : Name) (i : Nat) : Option Nat :=
  (l.section? n).bind (·.offsets[i]?)

/-- Whether the bytes that modules have in a section are found from given offsets on. -/
def HoldsParts (n : Name) (offsets : List Nat) (ms : List Module) (img : Module) : Prop :=
  ∀ (j : Nat) (m : Module) (start : Nat), ms[j]? = some m → offsets[j]? = some start →
    ∀ k < (m.contentsOf n).length, (img.contentsOf n)[start + k]? = (m.contentsOf n)[k]?

theorem HoldsParts.cons {n : Name} {start : Nat} {offsets : List Nat} {m : Module}
    {ms : List Module} {img : Module}
    (hm : ∀ k < (m.contentsOf n).length, (img.contentsOf n)[start + k]? = (m.contentsOf n)[k]?)
    (h : HoldsParts n offsets ms img) : HoldsParts n (start :: offsets) (m :: ms) img := by
  intro j m' start' hj hs
  cases j with
  | zero =>
    cases hj
    cases hs
    exact hm
  | succ j => exact h j m' start' hj hs

theorem appended_getElem? {n : Name} {m₁ m₂ m₃ : Module} {bs cs : List UInt8}
    (hb : Appends n bs m₁ m₂) (hc : Appends n cs m₂ m₃) :
    ∀ k < bs.length, (m₃.contentsOf n)[m₁.offset n + k]? = bs[k]? := by
  intro k hk
  have hlen : (m₁.contentsOf n).length = m₁.offset n := length_contentsOf _ _
  rw [hc.contents, hb.contents, List.append_assoc, List.getElem?_append_right (by omega), hlen,
    Nat.add_sub_cancel_left, List.getElem?_append_left hk]

/-- A part comes behind zeros that align it, and has to be where it was planned to be. -/
theorem copyParts_cons_eq_ok {n : Name} {start : Nat} {offsets : List Nat} {m : Module}
    {ms : List Module} {img img' : Module} {u : Unit}
    (h : img.perform (copyParts n (start :: offsets) (m :: ms)) = .ok (u, img')) :
    m.section? n = none ∧ img.perform (copyParts n offsets ms) = .ok (u, img') ∨
      ∃ t k m₁ m₂, m.section? n = some t ∧ Appends n (List.replicate k 0) img m₁ ∧
        m₁.offset n = start ∧ Appends n t.contents m₁ m₂ ∧
        m₂.perform (copyParts n offsets ms) = .ok (u, img') := by
  rw [copyParts] at h
  cases ht : m.section? n with
  | none =>
    rw [ht] at h
    exact .inl ⟨rfl, h⟩
  | some t =>
    rw [ht] at h
    dsimp only at h
    rw [perform_bind] at h
    obtain ⟨⟨v, m₁⟩, hal, h⟩ := except_bind_eq_ok.mp h
    obtain ⟨⟨k, hpad⟩, -⟩ := appends_align hal
    rw [perform_bind, perform_get, Except.bind] at h
    dsimp only at h
    split at h
    · cases h
    · next hstart =>
      rw [perform_bind, perform_discard] at h
      obtain ⟨⟨v, m₂⟩, hadd, h⟩ := except_bind_eq_ok.mp h
      obtain ⟨⟨k', m₂'⟩, hadd', heq⟩ := except_map_eq_ok.mp hadd
      cases heq
      exact .inr ⟨t, k, m₁, m₂', rfl, hpad, not_not.mp hstart, (appends_append hadd').2, h⟩

theorem copyParts_spec {n : Name} {offsets : List Nat} {ms : List Module} {img img' : Module}
    {u : Unit} {s : Section} (h : img.perform (copyParts n offsets ms) = .ok (u, img'))
    (hs : img.section? n = some s) :
    (∃ bs, Appends n bs img img') ∧ HoldsParts n offsets ms img' := by
  induction ms generalizing offsets img s with
  | nil =>
    have h' : img.perform (pure ()) = .ok (u, img') := by
      cases offsets <;> exact h
    cases h'
    exact ⟨⟨[], .refl hs⟩, fun j m start hj => by simp at hj⟩
  | cons m ms ih =>
    cases offsets with
    | nil => cases h
    | cons start offsets =>
      rcases copyParts_cons_eq_ok h with ⟨ht, h⟩ | ⟨t, k, m₁, m₂, ht, hpad, rfl, hadd, h⟩
      · obtain ⟨hbs, hparts⟩ := ih h hs
        exact ⟨hbs, hparts.cons (by simp [contentsOf, ht])⟩
      · obtain ⟨t₂, ht₂⟩ := Option.isSome_iff_exists.mp hadd.present
        obtain ⟨⟨bs, hbs⟩, hparts⟩ := ih h ht₂
        refine ⟨⟨_, (hpad.trans hadd).trans hbs⟩, hparts.cons ?_⟩
        rw [contentsOf_eq ht]
        exact appended_getElem? hadd hbs

theorem copySection_eq_ok {ms : List Module} {out : OutputSection} {img img' : Module} {u : Unit}
    (h : img.perform (copySection ms out) = .ok (u, img')) :
    ∃ s m₁ m₂, Appends out.name [] img m₁ ∧ m₁.section? out.name = some s ∧
      m₂ = m₁.updateSection out.name ({ · with virtualAddress := out.address.toUInt64 }) ∧
      m₂.section? out.name = some { s with virtualAddress := out.address.toUInt64 } ∧
      m₂.perform (copyParts out.name out.offsets ms) = .ok (u, img') := by
  rw [copySection, perform_bind, perform_discard] at h
  obtain ⟨⟨v, m₀⟩, hadd, h⟩ := except_bind_eq_ok.mp h
  obtain ⟨⟨s, m₁⟩, hadd', heq⟩ := except_map_eq_ok.mp hadd
  cases heq
  obtain ⟨hs, happ⟩ := appends_addSection hadd'
  rw [perform_bind, perform_modify, Except.bind] at h
  dsimp only at h
  refine ⟨s, m₁, _, happ, hs, rfl, ?_, h⟩
  have hname (s : Section) : { s with virtualAddress := out.address.toUInt64 }.name = s.name := rfl
  rw [section?_updateSection m₁ _ _ _ hname, if_pos rfl, hs, Option.map_some]

theorem copySection_spec {ms : List Module} {out : OutputSection} {img img' : Module} {u : Unit}
    (h : img.perform (copySection ms out) = .ok (u, img')) :
    ((img'.section? out.name).map Section.virtualAddress = some out.address.toUInt64 ∧
      HoldsParts out.name out.offsets ms img') ∧
    (∀ n, n ≠ out.name → img'.section? n = img.section? n) ∧ img'.order = img.order := by
  obtain ⟨s, m₁, m₂, happ, -, rfl, hplace, h⟩ := copySection_eq_ok h
  obtain ⟨⟨bs, hbs⟩, hparts⟩ := copyParts_spec h hplace
  refine ⟨⟨hbs.address _ hplace, hparts⟩, fun n hn => ?_, hbs.order.trans happ.order⟩
  have hname (s : Section) : { s with virtualAddress := out.address.toUInt64 }.name = s.name := rfl
  rw [hbs.others n hn, section?_updateSection m₁ _ _ _ hname, if_neg hn, happ.others n hn]

theorem copySections_spec {ms : List Module} {outs : List OutputSection} {img img' : Module}
    {u : PUnit} (h : img.perform (outs.forM (copySection ms)) = .ok (u, img'))
    (hn : (outs.map OutputSection.name).Nodup) :
    (∀ out ∈ outs,
      (img'.section? out.name).map Section.virtualAddress = some out.address.toUInt64 ∧
      HoldsParts out.name out.offsets ms img') ∧
    (∀ n, n ∉ outs.map OutputSection.name → img'.section? n = img.section? n) ∧
    img'.order = img.order := by
  induction outs generalizing img with
  | nil =>
    cases h
    exact ⟨by simp, fun _ _ => rfl, rfl⟩
  | cons out outs ih =>
    rw [perform_forM_cons] at h
    obtain ⟨⟨v, m₁⟩, hout, h⟩ := except_bind_eq_ok.mp h
    rw [List.map_cons, List.nodup_cons] at hn
    obtain ⟨hplaced, hothers, horder⟩ := copySection_spec hout
    obtain ⟨hrest, hframe, horder'⟩ := ih h hn.2
    refine ⟨fun o ho => ?_, fun n hmem => ?_, horder'.trans horder⟩
    · rcases List.mem_cons.mp ho with rfl | ho
      · have hsame := hframe o.name hn.1
        refine ⟨by rw [hsame]; exact hplaced.1, fun j m start hj hs k hk => ?_⟩
        rw [show img'.contentsOf o.name = m₁.contentsOf o.name by simp only [contentsOf, hsame]]
        exact hplaced.2 j m start hj hs k hk
      · exact hrest o ho
    · rw [List.map_cons, List.mem_cons, not_or] at hmem
      rw [hframe n hmem.2, hothers n hmem.1]

theorem keepsContents_exportGlobal {g : Global} {img img' : Module} {u : Unit}
    (h : img.perform (exportGlobal g) = .ok (u, img')) : KeepsContents img img' := by
  rw [exportGlobal, perform_bind, perform_discard] at h
  obtain ⟨⟨v, m₁⟩, hdef, hdec⟩ := except_bind_eq_ok.mp h
  obtain ⟨⟨b, m₁'⟩, hdef', heq⟩ := except_map_eq_ok.mp hdef
  cases heq
  rw [perform_discard] at hdec
  obtain ⟨⟨b', m₂⟩, hdec', heq⟩ := except_map_eq_ok.mp hdec
  cases heq
  exact (keepsContents_tryDefine hdef').trans (keepsContents_declare hdec')

/-- An image is made of its sections, to which symbols and the end of all changes add no bytes. -/
theorem image_eq_ok {l : Layout} {order : ByteOrder} {gs : Globals} {ms : List Module}
    {img : Module} (h : l.image order gs ms = .ok img) :
    ∃ m₁ m₂, ({ name := "image", order } : Module).perform (l.sections.forM (copySection ms)) =
        .ok ((), m₁) ∧ m₁.perform (gs.sorted.forM exportGlobal) = .ok ((), m₂) ∧
      img = m₂.finalize ∧ KeepsContents m₁ img := by
  obtain ⟨⟨v, m₂⟩, hbuild, heq⟩ := except_bind_eq_ok.mp h
  cases heq
  rw [perform_bind] at hbuild
  obtain ⟨⟨v, m₁⟩, hsections, hglobals⟩ := except_bind_eq_ok.mp hbuild
  have hkeeps : KeepsContents m₁ m₂ := perform_forM_induction
    (fun _ _ _ hg h => h.trans (keepsContents_exportGlobal hg)) hglobals (.refl m₁)
  exact ⟨m₁, m₂, hsections, hglobals, rfl, hkeeps.sections, hkeeps.references, hkeeps.order⟩

theorem image_spec {l : Layout} {order : ByteOrder} {gs : Globals} {ms : List Module}
    {img : Module} (h : l.image order gs ms = .ok img)
    (hn : (l.sections.map OutputSection.name).Nodup) :
    img.order = order ∧ ∀ out ∈ l.sections,
      (img.section? out.name).map Section.virtualAddress = some out.address.toUInt64 ∧
      HoldsParts out.name out.offsets ms img := by
  obtain ⟨m₁, m₂, hsections, -, -, hkeeps⟩ := image_eq_ok h
  obtain ⟨hplaced, -, horder⟩ := copySections_spec hsections hn
  refine ⟨hkeeps.order.trans horder, fun out hout => ⟨?_, fun j m' start hj hst k hk => ?_⟩⟩
  · rw [hkeeps.section?]
    exact (hplaced out hout).1
  · rw [contentsOf, hkeeps.section?]
    exact (hplaced out hout).2 j m' start hj hst k hk

end Layout

end MipsToolchain
