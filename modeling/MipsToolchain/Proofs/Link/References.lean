import MipsToolchain.Proofs.Link.Program
import MipsToolchain.Proofs.Object.Relocation

namespace MipsToolchain

open Diagnostic MipsToolchain.Module

/-- Whether both halves of split addresses are among references, the upper one first. -/
def SplitsPaired : List Reference → Prop
  | [] => True
  | r :: rs => (r.kind = .high16 → PairedIn rs r) ∧ SplitsPaired rs

instance (rs : List Reference) (r : Reference) : Decidable (PairedIn rs r) :=
  inferInstanceAs (Decidable (∃ q ∈ rs, _))

instance SplitsPaired.decidable : ∀ rs, Decidable (SplitsPaired rs)
  | [] => .isTrue trivial
  | r :: rs =>
    have := SplitsPaired.decidable rs
    inferInstanceAs (Decidable ((r.kind = .high16 → PairedIn rs r) ∧ SplitsPaired rs))

theorem SplitsPaired.pairedIn {pre post : List Reference} {r : Reference}
    (h : SplitsPaired (pre ++ r :: post)) (hk : r.kind = .high16) : PairedIn post r := by
  induction pre with
  | nil => exact h.1 hk
  | cons q pre ih => exact ih h.2

theorem SplitsPaired.exists_lower {rs : List Reference} (h : SplitsPaired rs) {r : Reference}
    (hr : r ∈ rs) (hk : r.kind = .high16) :
    ∃ q ∈ rs, q.kind = .low16 ∧ q.location = r.location.add 4 ∧ q.symbol = r.symbol := by
  obtain ⟨pre, post, rfl⟩ := List.append_of_mem hr
  obtain ⟨q, hq, hlower⟩ := h.pairedIn hk
  exact ⟨q, by simp [hq], hlower⟩

/-- The word of a reference before and after linking, with the address that it is about. -/
structure Rewrites (l : Layout) (gs : Globals) (i : Nat) (m img : Module) (r : Reference)
    (t : Int64) (w w' : UInt32) : Prop where
  target : resolveReference l gs i m r = .ok (some t)
  before : m.wordIn? m.order r.location.sectionName r.location.offset = some w
  after : ∃ start, l.partStart? r.location.sectionName i = some start ∧
    img.wordIn? m.order r.location.sectionName (start + r.location.offset) = some w'

theorem resolveReference_congr {l : Layout} {gs : Globals} {i : Nat} {m : Module}
    {r q : Reference} (h : r.symbol = q.symbol) :
    resolveReference l gs i m r = resolveReference l gs i m q := by
  unfold resolveReference
  rw [h]

theorem relocationDelta_eq {l : Layout} {i : Nat} {r : Reference} {t delta : Int64}
    (h : relocationDelta l i r t = .ok delta) (hk : r.kind ≠ .pcrel16) : delta = t := by
  rw [relocationDelta, if_neg hk] at h
  cases h
  rfl

section Linked

variable {s : Settings} {ms : List Module} {r : Reported (Option Program)} {p : Program}

theorem link_reference (h : link s ms = .ok r) (hp : r.value = some p) {i : Nat} {m : Module}
    (hm : ms[i]? = some m) (hd : m.references.Pairwise Reference.Disjoint) {q : Reference}
    (hq : q ∈ m.references) (hs : q.kind = .high16 → SplitsPaired m.references) :
    ∃ out start t delta w w',
      Part (Layout.ofModules s.link ms) i p.image q.location.sectionName out start ∧
      resolveReference (Layout.ofModules s.link ms) p.globals i m q = .ok (some t) ∧
      relocationDelta (Layout.ofModules s.link ms) i q t = .ok delta ∧
      m.wordIn? m.order q.location.sectionName q.location.offset = some w ∧
      (m.relocatedWord q w delta).run = .ok (.ok w') ∧
      p.image.wordIn? m.order q.location.sectionName (start + q.location.offset) = some w' := by
  obtain ⟨res, hres, he, hholds⟩ := link_module h hp hm
  obtain ⟨pre, post, hrefs⟩ := List.append_of_mem hq
  have hpair : q.kind = .high16 → PairedIn post q := fun hk => (hrefs ▸ hs hk).pairedIn hk
  obtain ⟨t, delta, w, w', ht, hdelta, hw, hrel, hw'⟩ :=
    relinked_linkReferences hres he (.refl m) (by simpa using hd) hrefs hpair
  obtain ⟨out, start, hold⟩ := hholds _ (section?_of_lt_offset (le_offset_of_wordIn? hw))
  refine ⟨out, start, t, delta, w, w', hold.toPart, ht, hdelta, hw, hrel, ?_⟩
  rw [hold.word (le_offset_of_wordIn? hw')]
  exact hw'

theorem link_rewrites (h : link s ms = .ok r) (hp : r.value = some p) {i : Nat} {m : Module}
    (hm : ms[i]? = some m) (hd : m.references.Pairwise Reference.Disjoint)
    (hs : SplitsPaired m.references) {q : Reference} (hq : q ∈ m.references) :
    ∃ t w w', Rewrites (Layout.ofModules s.link ms) p.globals i m p.image q t w w' ∧
      (q.kind ≠ .pcrel16 → (m.relocatedWord q w t).run = .ok (.ok w')) := by
  obtain ⟨out, start, t, delta, w, w', hpart, ht, hdelta, hw, hrel, hw'⟩ :=
    link_reference h hp hm hd hq fun _ => hs
  refine ⟨t, w, w', ⟨ht, hw, start, hpart.partStart?, hw'⟩, fun hk => ?_⟩
  rwa [relocationDelta_eq hdelta hk] at hrel

theorem link_other_byte (h : link s ms = .ok r) (hp : r.value = some p) {i : Nat} {m : Module}
    (hm : ms[i]? = some m) {n : Name} {k : Nat} {b : UInt8} (hb : m.byte? n k = some b)
    (hc : ∀ q ∈ m.references, ¬ q.Covers n k) :
    ∃ start, (Layout.ofModules s.link ms).partStart? n i = some start ∧
      p.image.byte? n (start + k) = some b := by
  obtain ⟨res, hres, -, hholds⟩ := link_module h hp hm
  have hk := lt_offset_of_byte? hb
  obtain ⟨out, start, hold⟩ := hholds n (section?_of_lt_offset hk)
  have hsame := (untouched_linkReferences hres).bytes n k hc
  refine ⟨start, hold.partStart?, ?_⟩
  rw [hold.bytes k (lt_offset_of_byte? (hsame.trans hb)), hsame, hb]

/-- What linking does to the words of a module: each reference adds the address of what it refers to,
over one word, over the low half of one, or over the low halves of two, and all else stays. -/
theorem link_patches_references (h : link s ms = .ok r) (hp : r.value = some p)
    (hd : ∀ m ∈ ms, m.references.Pairwise Reference.Disjoint)
    (hs : ∀ m ∈ ms, SplitsPaired m.references) {i : Nat} {m : Module} (hm : ms[i]? = some m) :
    (∀ q ∈ m.references, ∃ t w w',
      Rewrites (Layout.ofModules s.link ms) p.globals i m p.image q t w w' ∧
      (q.kind = .absolute32 → (w'.toNat : Int) = (w.toNat + t.toInt) % 0x100000000) ∧
      (q.kind = .low16 → w'.toNat / 0x10000 = w.toNat / 0x10000 ∧
        (w'.toNat % 0x10000 : Nat) = (w.toNat + t.toInt) % 0x10000) ∧
      (q.kind = .high16 → ∃ lower ∈ m.references, lower.kind = .low16 ∧
        lower.location = q.location.add 4 ∧ lower.symbol = q.symbol ∧ ∃ v v',
          Rewrites (Layout.ofModules s.link ms) p.globals i m p.image lower t v v' ∧
          w'.toNat / 0x10000 = w.toNat / 0x10000 ∧ v'.toNat / 0x10000 = v.toNat / 0x10000 ∧
          (joined w' v' : Int) = (joined w v + t.toInt) % 0x100000000)) ∧
    ∀ n k b, m.byte? n k = some b → (∀ q ∈ m.references, ¬ q.Covers n k) →
      ∃ start, (Layout.ofModules s.link ms).partStart? n i = some start ∧
        p.image.byte? n (start + k) = some b := by
  have hmem := List.mem_of_getElem? hm
  refine ⟨fun q hq => ?_, fun n k b hb hc => link_other_byte h hp hm hb hc⟩
  obtain ⟨t, w, w', hrw, hrel⟩ := link_rewrites h hp hm (hd m hmem) (hs m hmem) hq
  refine ⟨t, w, w', hrw, fun hk => ?_, fun hk => ?_, fun hk => ?_⟩
  · exact relocatedWord_absolute32 hk (hrel (by simp [hk]))
  · exact relocatedWord_low16 hk (hrel (by simp [hk]))
  · obtain ⟨lower, hmem', hkl, hloc, hsym⟩ := (hs m hmem).exists_lower hq hk
    obtain ⟨t', v, v', hrw', hrel'⟩ := link_rewrites h hp hm (hd m hmem) (hs m hmem) hmem'
    have ht : t' = t := by
      have heq := hrw'.target
      rw [resolveReference_congr hsym, hrw.target] at heq
      simpa using heq.symm
    subst ht
    obtain ⟨u, hu, hupper, hlow⟩ := relocatedWord_high16 hk (hrel (by simp [hk]))
    -- Nothing is patched before the lower half is read, so that it is the word that was assembled.
    have huv : u = v := by
      have hv := hrw'.before
      rw [hloc] at hv
      exact Option.some.inj (hu.symm.trans hv)
    subst huv
    obtain ⟨hupper', hlow'⟩ := relocatedWord_low16 hkl (hrel' (by simp [hkl]))
    refine ⟨lower, hmem', hkl, hloc, hsym, u, v', hrw', hupper, hupper', ?_⟩
    unfold joined at hlow ⊢
    omega

end Linked

def splitAddress : Module where
  name := "split"
  order := .big
  sections :=
    [⟨".text", StandardSection.text.flags, 0, 2,
        [0x3c, 0x04, 0x00, 0x01, 0x24, 0x84, 0xff, 0xfc].toByteArray⟩,
      ⟨".data", StandardSection.data.flags, 0, 2, [0, 0, 0, 4].toByteArray⟩]
  references :=
    [⟨.relative ".text" 0, ".data", .high16, 0⟩, ⟨.relative ".text" 4, ".data", .low16, 0⟩,
      ⟨.relative ".data" 0, ".text", .absolute32, 4⟩]
  finalized := true

theorem link_patches_splitAddress : ∃ r p, link {} [splitAddress] = .ok r ∧ r.value = some p ∧
    ∀ q ∈ splitAddress.references, ∃ t w w',
      Rewrites (Layout.ofModules {} [splitAddress]) p.globals 0 splitAddress p.image q t w w' := by
  have hlink : ((link {} [splitAddress]).toOption.bind Reported.value).isSome := by
    decide +kernel
  obtain ⟨p, hp⟩ := Option.isSome_iff_exists.mp hlink
  obtain ⟨r, hr, hp⟩ := Option.bind_eq_some_iff.mp hp
  have h : link {} [splitAddress] = .ok r := by
    cases hl : link {} [splitAddress] with
    | error f =>
      rw [hl] at hr
      cases hr
    | ok r' =>
      rw [hl] at hr
      cases hr
      rfl
  refine ⟨r, p, h, hp, fun q hq => ?_⟩
  obtain ⟨t, w, w', hrw, -⟩ :=
    (link_patches_references h hp (by decide) (by decide)
      (show [splitAddress][0]? = some splitAddress from rfl)).1 q hq
  exact ⟨t, w, w', hrw⟩

end MipsToolchain
