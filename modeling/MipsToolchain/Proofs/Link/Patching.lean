import MipsToolchain.Link.Image
import MipsToolchain.Proofs.Object.Relocation

namespace MipsToolchain

open Diagnostic

/-- What remains as it is when references of a module are patched. -/
structure Untouched (rs : List Reference) (m m' : Module) : Prop where
  order : m'.order = m.order
  symbols : m'.symbols = m.symbols
  lengths : ∀ n, (m'.section? n).map Section.length = (m.section? n).map Section.length
  bytes : ∀ n k, (∀ r ∈ rs, ¬ r.Covers n k) → m'.byte? n k = m.byte? n k

namespace Untouched

theorem keep (rs : List Reference) (m : Module) : Untouched rs m m :=
  ⟨rfl, rfl, fun _ => rfl, fun _ _ _ => rfl⟩

theorem refl (m : Module) : Untouched [] m m := keep [] m

theorem trans {rs qs : List Reference} {m m' m'' : Module} (h : Untouched rs m m')
    (h' : Untouched qs m' m'') : Untouched (rs ++ qs) m m'' where
  order := h'.order.trans h.order
  symbols := h'.symbols.trans h.symbols
  lengths n := (h'.lengths n).trans (h.lengths n)
  bytes n k hc := by
    rw [h'.bytes n k fun r hr => hc r (List.mem_append_right rs hr)]
    exact h.bytes n k fun r hr => hc r (List.mem_append_left qs hr)

theorem of_relocate {m m' : Module} {r : Reference} {delta : Int64}
    (h : (m.relocate r delta).run = .ok (.ok m')) : Untouched [r] m m' := by
  obtain ⟨s, w, w', hs, hle, -, -, rfl⟩ := Module.relocate_eq_ok h
  refine ⟨rfl, rfl, fun n => Module.length_section?_patch n, fun n k hc => ?_⟩
  rw [Module.byte?_patch hs (ByteOrder.length_wordBytes _ _) hle]
  exact if_neg (hc r (by simp))

variable {rs : List Reference} {m m' : Module}

theorem isSectionName (h : Untouched rs m m') (n : Name) :
    m'.isSectionName n = m.isSectionName n := by
  have hn := congrArg Option.isSome (h.lengths n)
  simp only [Option.isSome_map] at hn
  simp only [Module.isSectionName, hn]

theorem offset (h : Untouched rs m m') (n : Name) : m'.offset n = m.offset n := by
  rw [Module.offset, Module.offset, h.lengths]

theorem resolveReference (h : Untouched rs m m') (l : Layout) (gs : Globals) (i : Nat)
    (r : Reference) : resolveReference l gs i m' r = resolveReference l gs i m r := by
  have hs : m'.symbol? r.symbol = m.symbol? r.symbol := by
    simp only [Module.symbol?, h.symbols]
  unfold MipsToolchain.resolveReference
  rw [h.isSectionName, hs]

theorem word (h : Untouched rs m m') {r : Reference} (hd : ∀ q ∈ rs, r.Disjoint q)
    (o : ByteOrder) :
    m'.wordIn? o r.location.sectionName r.location.offset =
      m.wordIn? o r.location.sectionName r.location.offset :=
  Module.wordIn?_congr fun _ hi => h.bytes _ _ fun q hq => (hd q hq).not_covers hi

theorem readWord (h : Untouched rs m m') {r : Reference} (hd : ∀ q ∈ rs, r.Disjoint q) :
    m'.readWord r.location = m.readWord r.location :=
  Module.readWord_congr h.order (h.lengths _) fun _ hi =>
    h.bytes _ _ fun q hq => (hd q hq).not_covers hi

end Untouched

section Run

variable {l : Layout} {gs : Globals} {i : Nat}

theorem linkReference_eq (l : Layout) (gs : Globals) (i : Nat) (m : Module) (r : Reference) :
    linkReference l gs i m r = match resolveReference l gs i m r with
      | .error f => .error f
      | .ok none => .ok ⟨m, (report .unresolvedSymbol .none [r.symbol.text]
          [.text r.symbol, .text m.name]).diagnostics⟩
      | .ok (some t) => match relocationDelta l i r t with
        | .error f => .error f
        | .ok delta => match (m.relocate r delta).run with
          | .error f => .error f
          | .ok (.ok m') => .ok ⟨m', []⟩
          | .ok (.error e) => .ok ⟨m, (report .relocationFailed .none [r.symbol.text]
              [.text r.symbol, .text e.message]).diagnostics⟩ := by
  unfold linkReference
  rcases resolveReference l gs i m r with f | ⟨_ | t⟩
  · rfl
  · rfl
  · change (pure (some t) : Guarded (Option Int64)) >>= _ = _
    rw [pure_bind]
    dsimp only
    rcases relocationDelta l i r t with f | delta
    · rfl
    · change (pure delta : Guarded Int64) >>= _ = _
      rw [pure_bind]
      dsimp only
      rcases (m.relocate r delta).run with f | ⟨e | m'⟩ <;> rfl

theorem linkReference_eq_ok {m : Module} {r : Reference} {res : Reported Module}
    (h : linkReference l gs i m r = .ok res) (he : errorCount res.diagnostics = 0) :
    ∃ t delta, resolveReference l gs i m r = .ok (some t) ∧
      relocationDelta l i r t = .ok delta ∧ (m.relocate r delta).run = .ok (.ok res.value) := by
  rw [linkReference_eq] at h
  split at h
  · cases h
  · cases h
    exact absurd (by simpa using he) (errorCount_report_append rfl _ _ _ [])
  · next t ht =>
    split at h
    · cases h
    · next delta hdelta =>
      split at h
      · cases h
      · next hrel =>
        cases h
        exact ⟨t, delta, ht, hdelta, hrel⟩
      · cases h
        exact absurd (by simpa using he) (errorCount_report_append rfl _ _ _ [])

theorem untouched_linkReference {m : Module} {r : Reference} {res : Reported Module}
    (h : linkReference l gs i m r = .ok res) : Untouched [r] m res.value := by
  rw [linkReference_eq] at h
  split at h
  · cases h
  · cases h
    exact .keep _ _
  · split at h
    · cases h
    · split at h
      · cases h
      · next hrel =>
        cases h
        exact .of_relocate hrel
      · cases h
        exact .keep _ _

theorem linkReferences_cons {m : Module} {r : Reference} {rs : List Reference}
    {res : Reported Module} (h : linkReferences l gs i (r :: rs) m = .ok res)
    (he : errorCount res.diagnostics = 0) :
    ∃ a b, linkReference l gs i m r = .ok a ∧ errorCount a.diagnostics = 0 ∧
      linkReferences l gs i rs a.value = .ok b ∧ errorCount b.diagnostics = 0 ∧
      b.value = res.value := by
  obtain ⟨a, b, ha, hb, rfl⟩ := Guarded.bind_eq_ok.mp h
  rw [errorCount_append] at he
  exact ⟨a, b, ha, by omega, hb, by omega, rfl⟩

theorem untouched_linkReferences {m : Module} {rs : List Reference} {res : Reported Module}
    (h : linkReferences l gs i rs m = .ok res) : Untouched rs m res.value := by
  induction rs generalizing m res with
  | nil =>
    cases Guarded.pure_eq_ok.mp h
    exact .refl m
  | cons r rs ih =>
    obtain ⟨a, b, ha, hb, rfl⟩ := Guarded.bind_eq_ok.mp h
    have hrest : Untouched rs a.value b.value := ih hb
    exact (untouched_linkReference ha).trans hrest

/-- What becomes of the word of a reference, in terms of the module before any word was patched. -/
def Relinked (l : Layout) (gs : Globals) (i : Nat) (m m' : Module) (r : Reference) : Prop :=
  ∃ t delta w w', resolveReference l gs i m r = .ok (some t) ∧
    relocationDelta l i r t = .ok delta ∧
    m.wordIn? m.order r.location.sectionName r.location.offset = some w ∧
    (m.relocatedWord r w delta).run = .ok (.ok w') ∧
    m'.wordIn? m.order r.location.sectionName r.location.offset = some w'

def PairedIn (rs : List Reference) (r : Reference) : Prop :=
  ∃ q ∈ rs, q.kind = .low16 ∧ q.location = r.location.add 4 ∧ q.symbol = r.symbol

-- The first reference sees the original module, since those behind it come later, and the word that
-- it leaves stays, since they do not touch it. An upper half reads the lower one before that changes.
theorem relinked_linkReferences {m₀ m : Module} {done rs : List Reference} {res : Reported Module}
    (h : linkReferences l gs i rs m = .ok res) (he : errorCount res.diagnostics = 0)
    (hu : Untouched done m₀ m) (hd : (done ++ rs).Pairwise Reference.Disjoint)
    {pre post : List Reference} {r : Reference} (hrs : rs = pre ++ r :: post)
    (hp : r.kind = .high16 → PairedIn post r) : Relinked l gs i m₀ res.value r := by
  induction pre generalizing m rs done res with
  | nil =>
    subst hrs
    obtain ⟨a, b, ha, hea, hb, heb, hval⟩ := linkReferences_cons h he
    obtain ⟨t, delta, ht, hdelta, hrel⟩ := linkReference_eq_ok ha hea
    obtain ⟨s, w, w', hs, hle, hw, hw', hm⟩ := Module.relocate_eq_ok hrel
    -- The words of other references, before and behind, are none of the bytes of this one.
    have hdone : ∀ q ∈ r :: post, ∀ q' ∈ done, q.Disjoint q' := fun q hq q' hq' =>
      ((List.pairwise_append.mp hd).2.2 q' hq' q hq).symm
    have hpost : ∀ q ∈ post, r.Disjoint q :=
      (List.pairwise_cons.mp (List.pairwise_append.mp hd).2.1).1
    refine ⟨t, delta, w, w', ?_, hdelta, ?_, ?_, ?_⟩
    · rw [← hu.resolveReference]
      exact ht
    · rw [← hu.word (hdone r (by simp)), ← hu.order]
      exact hw
    · rw [← Module.relocatedWord_congr (m := m)]
      · exact hw'
      · intro hk
        obtain ⟨q, hq, -, hloc, -⟩ := hp hk
        rw [← hloc]
        exact hu.readWord (hdone q (by simp [hq]))
    · have hpatch := Module.wordIn?_patch hs hle m.order w'
      rw [← hm, hu.order] at hpatch
      rw [← hval, (untouched_linkReferences hb).word hpost]
      exact hpatch
  | cons p pre ih =>
    subst hrs
    obtain ⟨a, b, ha, hea, hb, heb, hval⟩ := linkReferences_cons h he
    obtain ⟨t, delta, -, -, hrel⟩ := linkReference_eq_ok ha hea
    rw [← hval]
    exact ih hb heb (hu.trans (.of_relocate hrel)) (by simpa using hd) rfl

theorem linkModules_eq_ok {ms : List Module} {res : Reported (List Module)}
    (h : linkModules l gs i ms = .ok res) (he : errorCount res.diagnostics = 0) {j : Nat}
    {m : Module} (hm : ms[j]? = some m) :
    ∃ out, linkReferences l gs (i + j) m.references m = .ok out ∧
      errorCount out.diagnostics = 0 ∧ res.value[j]? = some out.value := by
  induction ms generalizing i j res with
  | nil => cases hm
  | cons m₀ ms ih =>
    obtain ⟨a, b, ha, hb, rfl⟩ := Guarded.bind_eq_ok.mp h
    obtain ⟨c, d, hc, hd, rfl⟩ := Guarded.bind_eq_ok.mp hb
    cases Guarded.pure_eq_ok.mp hd
    simp only [errorCount_append] at he
    cases j with
    | zero =>
      cases hm
      exact ⟨a, ha, by omega, rfl⟩
    | succ j =>
      obtain ⟨out, hout, heo, hval⟩ := ih hc (by omega) hm
      exact ⟨out, by rwa [show i + (j + 1) = i + 1 + j by omega], heo, hval⟩

end Run

end MipsToolchain
