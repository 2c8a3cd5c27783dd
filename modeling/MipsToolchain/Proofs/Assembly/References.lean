import MipsToolchain.Proofs.Assembly.Moves

namespace MipsToolchain

open Diagnostic EncodedWord MipsToolchain.Module

namespace Reference

/-- Whether every upper half of an address is followed by the lower half of it, in the list and in the
section. -/
def Paired : List (Reference × Nat) → Prop
  | [] => True
  | p :: ps => (p.1.kind = .high16 → ∃ q, ps.head? = some (q, p.2 + 4) ∧ q.kind = .low16 ∧
      q.location.sectionName = p.1.location.sectionName ∧ q.symbol = p.1.symbol ∧
      q.addend = p.1.addend) ∧ Paired ps

theorem paired_append {ps qs : List (Reference × Nat)} (hp : Paired ps) (hq : Paired qs) :
    Paired (ps ++ qs) := by
  induction ps with
  | nil => exact hq
  | cons p ps ih =>
    obtain ⟨hhead, htail⟩ := hp
    refine ⟨fun hk => ?_, ih htail⟩
    obtain ⟨q, hhead, hrest⟩ := hhead hk
    exact ⟨q, by simp [List.head?_append, hhead], hrest⟩

theorem Paired.exists_lower {ps : List (Reference × Nat)} (h : Paired ps) {p : Reference × Nat}
    (hp : p ∈ ps) (hk : p.1.kind = .high16) :
    ∃ q, (q, p.2 + 4) ∈ ps ∧ q.location.sectionName = p.1.location.sectionName := by
  induction ps with
  | nil => cases hp
  | cons p' ps ih =>
    obtain ⟨hhead, htail⟩ := h
    rcases List.mem_cons.mp hp with rfl | hp
    · obtain ⟨q, hq, -, hn, -⟩ := hhead hk
      exact ⟨q, List.mem_cons_of_mem _ (List.mem_of_head? hq), hn⟩
    · obtain ⟨q, hq, hn⟩ := ih htail hp
      exact ⟨q, List.mem_cons_of_mem _ hq, hn⟩

end Reference

namespace Module

structure RefersTo (m : Module) (r : Reference) (o : Nat) : Prop where
  location : r.location = .relative r.location.sectionName (Int64.ofNat o)
  named : r.location.isRelocatable
  aligned : 4 ∣ o
  inside : ∃ s, m.section? r.location.sectionName = some s ∧ o + 4 ≤ s.length
  holds : ∃ w, m.wordIn? m.order r.location.sectionName o = some w ∧ r.HoldsAddend w

/-- The references of a module in their order, each with the offset of its word. -/
structure ListsReferences (m : Module) (ps : List (Reference × Nat)) : Prop where
  references : ps.map (·.1) = m.references
  refers : ∀ p ∈ ps, m.RefersTo p.1 p.2
  distinct : (ps.map fun p => (p.1.location.sectionName, p.2)).Nodup
  paired : Reference.Paired ps

theorem RefersTo.le_offset {m : Module} {r : Reference} {o : Nat} (h : m.RefersTo r o) :
    o + 4 ≤ m.offset r.location.sectionName := by
  obtain ⟨w, hw, -⟩ := h.holds
  exact le_offset_of_wordIn? hw

theorem RefersTo.mono {m m' : Module} {r : Reference} {o : Nat} (h : m.RefersTo r o)
    (hg : Grows m m') : m'.RefersTo r o := by
  obtain ⟨w, hw, hholds⟩ := h.holds
  have hw' : m'.wordIn? m'.order r.location.sectionName o = some w := by
    rw [hg.order]
    exact hg.word hw
  exact ⟨h.location, h.named, h.aligned, inside_of_wordIn? hw', w, hw', hholds⟩

namespace ListsReferences

variable {m m' : Module} {ps qs : List (Reference × Nat)}

theorem of_references (h : m.ListsReferences ps) (hg : Grows m m')
    (hr : m'.references = m.references) : m'.ListsReferences ps :=
  ⟨h.references.trans hr.symm, fun p hp => (h.refers p hp).mono hg, h.distinct, h.paired⟩

-- Old words end where their section ended before, and new ones do not start earlier.
theorem extend (h : m.ListsReferences ps) (hg : Grows m m')
    (hr : m'.references = m.references ++ qs.map (·.1)) (hq : ∀ q ∈ qs, m'.RefersTo q.1 q.2)
    (hfresh : ∀ q ∈ qs, m.offset q.1.location.sectionName ≤ q.2)
    (hd : (qs.map fun p => (p.1.location.sectionName, p.2)).Nodup) (hp : Reference.Paired qs) :
    m'.ListsReferences (ps ++ qs) := by
  refine ⟨by rw [List.map_append, h.references, hr], fun p hp => ?_, ?_,
    Reference.paired_append h.paired hp⟩
  · rcases List.mem_append.mp hp with hp | hp
    · exact (h.refers p hp).mono hg
    · exact hq p hp
  · rw [List.map_append]
    refine List.nodup_append.mpr ⟨h.distinct, hd, ?_⟩
    intro x hx y hy hxy
    obtain ⟨p, hp, rfl⟩ := List.mem_map.mp hx
    obtain ⟨q, hq, rfl⟩ := List.mem_map.mp hy
    obtain ⟨hn, ho⟩ := Prod.mk.inj hxy
    have hold := (h.refers p hp).le_offset
    have hnew := hfresh q hq
    rw [← hn] at hnew
    omega

/-- Where lengths are signed numbers of 64 bits, different words have different locations. -/
theorem nodup_locations (h : m.ListsReferences ps) (hs : m.Sized) :
    (m.references.map (·.location)).Nodup := by
  rw [← h.references, List.map_map, List.nodup_map_iff_inj_on (.of_map _ h.distinct)]
  intro p hp q hq hloc
  have hp' := h.refers p hp
  have hq' := h.refers q hq
  refine List.inj_on_of_nodup_map h.distinct hp hq ?_
  have hn : p.1.location.sectionName = q.1.location.sectionName := congrArg Address.sectionName hloc
  have hlp := hp'.le_offset
  have hlq := hq'.le_offset
  have hsp := hs p.1.location.sectionName
  have hsq := hs q.1.location.sectionName
  have hv : (Int64.ofNat p.2).toInt = (Int64.ofNat q.2).toInt := by
    have hvp := congrArg Address.value hp'.location
    have hvq := congrArg Address.value hq'.location
    have hvv := congrArg Address.value hloc
    exact congrArg Int64.toInt (hvp.symm.trans (hvv.trans hvq))
  rw [Int64.toInt_ofNat_of_lt (by omega), Int64.toInt_ofNat_of_lt (by omega)] at hv
  exact Prod.ext hn (Int.ofNat.inj hv)

end ListsReferences

end Module

namespace EncodedWord

def listFrom (o : Nat) : List EncodedWord → List (Reference × Nat)
  | [] => []
  | w :: ws => (w.reference.map (·, o)).toList ++ listFrom (o + 4) ws

theorem map_listFrom (o : Nat) (ws : List EncodedWord) :
    (listFrom o ws).map (·.1) = ws.filterMap (·.reference) := by
  induction ws generalizing o with
  | nil => rfl
  | cons w ws ih =>
    rw [listFrom, List.map_append, ih, List.filterMap_cons]
    cases w.reference <;> rfl

theorem mem_listFrom {o : Nat} {ws : List EncodedWord} {p : Reference × Nat}
    (h : p ∈ listFrom o ws) :
    ∃ k w, ws[k]? = some w ∧ w.reference = some p.1 ∧ p.2 = o + 4 * k := by
  induction ws generalizing o with
  | nil => cases h
  | cons w ws ih =>
    rcases List.mem_append.mp h with h | h
    · rw [Option.mem_toList, Option.map_eq_some_iff] at h
      obtain ⟨r, hr, rfl⟩ := h
      exact ⟨0, w, rfl, hr, rfl⟩
    · obtain ⟨k, w', hw', hr, ho⟩ := ih h
      exact ⟨k + 1, w', hw', hr, by omega⟩

theorem nodup_listFrom (o : Nat) (ws : List EncodedWord) :
    ((listFrom o ws).map fun p => (p.1.location.sectionName, p.2)).Nodup := by
  induction ws generalizing o with
  | nil => exact .nil
  | cons w ws ih =>
    rw [listFrom, List.map_append]
    refine List.nodup_append.mpr ⟨?_, ih (o + 4), ?_⟩
    · cases w.reference <;> simp
    · intro x hx y hy hxy
      obtain ⟨p, hp, rfl⟩ := List.mem_map.mp hx
      obtain ⟨q, hq, rfl⟩ := List.mem_map.mp hy
      obtain ⟨k, -, -, -, hk⟩ := mem_listFrom hq
      rw [Option.mem_toList, Option.map_eq_some_iff] at hp
      obtain ⟨r, -, rfl⟩ := hp
      have ho : o = q.2 := (Prod.mk.inj hxy).2
      omega

theorem add_four_relative (n : Name) (o : Nat) :
    (Address.relative n (Int64.ofNat o)).add 4 = .relative n (Int64.ofNat (o + 4)) :=
  Address.add_inSection n o 4

theorem WellEncoded.fitsAt {n : Name} {o : Nat} {ws : List EncodedWord}
    (h : WellEncoded (.relative n (Int64.ofNat o)) ws) {k : Nat} {w : EncodedWord}
    (hw : ws[k]? = some w) : w.FitsAt (.relative n (Int64.ofNat (o + 4 * k))) := by
  have hplace : (Address.relative n (Int64.ofNat o)).add (Int64.ofNat (4 * k)) =
      .relative n (Int64.ofNat (o + 4 * k)) := Address.add_inSection n o (4 * k)
  exact hplace ▸ h.fitsAt_add hw

theorem WellEncoded.paired {n : Name} {o : Nat} {ws : List EncodedWord}
    (h : WellEncoded (.relative n (Int64.ofNat o)) ws) : Reference.Paired (listFrom o ws) := by
  induction ws generalizing o with
  | nil => trivial
  | cons w ws ih =>
    obtain ⟨hfits, hpaired, hws⟩ := h
    rw [add_four_relative] at hws
    rw [listFrom]
    cases hr : w.reference with
    | none => exact ih hws
    | some r =>
      refine ⟨fun hk => ?_, ih hws⟩
      obtain ⟨w', q, hnext, hq, hkind, hsymbol, haddend⟩ := hpaired r hr hk
      obtain ⟨ws', rfl⟩ := List.head?_eq_some_iff.mp hnext
      have hloc := (hws.fitsAt (k := 0) rfl q hq).1
      have hn : q.location.sectionName = r.location.sectionName := by
        rw [hloc, (hfits r hr).1]
        rfl
      exact ⟨q, by simp [listFrom, hq], hkind, hn, hsymbol, haddend⟩

end EncodedWord

namespace Environment

variable {env env' : Environment} {ps : List (Reference × Nat)}

theorem listsReferences_storeWords {ws : List EncodedWord} (hn : env.current.isEmpty = false)
    (hps : env.module.ListsReferences ps) (ha : 4 ∣ env.module.offset env.current)
    (hws : WellEncoded env.location ws) (h : storeWords true ws env = .ok env') :
    env'.module.ListsReferences (ps ++ listFrom (env.module.offset env.current) ws) := by
  have hwrites := writes_storeWords h
  have hfits : ∀ q ∈ listFrom (env.module.offset env.current) ws,
      q.1.location = .relative env.current (Int64.ofNat q.2) ∧
        env.module.offset env.current ≤ q.2 ∧ 4 ∣ q.2 ∧
        ∃ w, env'.module.wordIn? env'.module.order env.current q.2 = some w ∧
          q.1.HoldsAddend w := by
    intro q hq
    obtain ⟨k, w, hw, hr, ho⟩ := mem_listFrom hq
    obtain ⟨hloc, hholds⟩ := hws.fitsAt hw q.1 hr
    rw [ho]
    exact ⟨hloc, by omega, by omega, w.value, hwrites.word hw, hholds⟩
  -- The new references are listed behind the old ones, whose words are in front.
  refine hps.extend (advances_storeWords h hws).grows ?_ ?_ ?_ (nodup_listFrom _ _) hws.paired
  · rw [hwrites.references, map_listFrom, if_pos rfl]
  · intro q hq
    obtain ⟨hloc, -, hdvd, w, hw, hholds⟩ := hfits q hq
    have hsec : q.1.location.sectionName = env.current := by rw [hloc]; rfl
    refine ⟨?_, ?_, hdvd, ?_, w, ?_, hholds⟩
    · rw [hsec, hloc]
    · rw [Address.isRelocatable, hsec, hn]
      rfl
    · rw [hsec]
      exact inside_of_wordIn? hw
    · rw [hsec]
      exact hw
  · intro q hq
    obtain ⟨hloc, hle, -⟩ := hfits q hq
    rw [hloc]
    exact hle

theorem Move.references_or_stores {payload : Payload} (h : Move payload env env') :
    env'.module.references = env.module.references ∨ payload ≠ .nothing ∧ ∃ tracked ws,
      4 ∣ env.module.offset env.current ∧ WellEncoded env.location ws ∧
        storeWords tracked ws env = .ok env' := by
  cases h with
  | align h =>
    obtain ⟨u, m, hm, rfl⟩ := apply_eq_ok h
    obtain ⟨⟨bs, happ⟩, -⟩ := appends_align hm
    exact .inl happ.references
  | reserve h =>
    obtain ⟨k, m, hm, rfl⟩ := apply_eq_ok h
    exact .inl (appends_reserve hm).references
  | append _ h =>
    obtain ⟨k, m, hm, rfl⟩ := apply_eq_ok h
    exact .inl (appends_append hm).2.references
  | store hs _ ha hws _ h => exact .inr ⟨hs, _, _, ha, hws, h⟩
  | switch _ _ h =>
    obtain ⟨env₁, ha, rfl⟩ := except_map_eq_ok.mp h
    obtain ⟨s, m, hm, rfl⟩ := apply_eq_ok ha
    exact .inl (appends_addSection hm).2.references
  | define _ _ h =>
    obtain ⟨m, hm, rfl⟩ := edit_eq_ok h
    exact .inl (keepsContents_define hm).references
  | declare _ _ h =>
    obtain ⟨m, hm, rfl⟩ := edit_eq_ok h
    exact .inl (keepsContents_declare hm).references
  | option => exact .inl rfl

theorem MovesBy.references (h : MovesBy .nothing env env') :
    env'.module.references = env.module.references := by
  induction h with
  | refl => rfl
  | tail _ hmove ih =>
    rcases hmove.references_or_stores with hr | ⟨hs, -⟩
    · exact hr.trans ih
    · exact absurd rfl hs

theorem Move.listsReferences {payload : Payload} (h : Move payload env env')
    (hn : env.current.isEmpty = false) (hps : env.module.ListsReferences ps) :
    ∃ qs, env'.module.ListsReferences (ps ++ qs) := by
  have hgrows := h.advances.grows
  have hkeep : env'.module.references = env.module.references →
      ∃ qs, env'.module.ListsReferences (ps ++ qs) := fun hr =>
    ⟨[], by simpa using hps.of_references hgrows hr⟩
  rcases h.references_or_stores with hr | ⟨-, tracked, ws, ha, hws, hstore⟩
  · exact hkeep hr
  · cases tracked with
    | true => exact ⟨_, listsReferences_storeWords hn hps ha hws hstore⟩
    | false => exact hkeep (by simpa using (writes_storeWords hstore).references)

theorem MovesBy.listsReferences {payload : Payload} (h : MovesBy payload env env')
    (hn : env.current.isEmpty = false) (hps : env.module.ListsReferences ps) :
    ∃ qs, env'.module.ListsReferences qs := by
  induction h with
  | refl => exact ⟨ps, hps⟩
  | @tail env₁ env₂ hmoves hmove ih =>
    obtain ⟨qs, hqs⟩ := ih
    obtain ⟨rs, hrs⟩ := hmove.listsReferences ((MovesBy.advances hmoves).named hn) hqs
    exact ⟨_, hrs⟩

end Environment

theorem listsReferences_assembleLines {s : Settings} {name : String} {text : List String}
    {r : Reported Module} (h : assembleLines s name text = .ok r) :
    ∃ ps, r.value.ListsReferences ps := by
  obtain ⟨out, hout, -, hkeeps, -⟩ := assembleLines_eq_ok h
  have hinitial : (Environment.initial { name, order := s.order }).module.ListsReferences [] :=
    ⟨rfl, by simp, .nil, trivial⟩
  obtain ⟨ps, hps⟩ := (Environment.moves_lines _ _ _ _ _ out hout).listsReferences rfl hinitial
  exact ⟨ps, hps.of_references (.of_keepsContents hkeeps) hkeeps.references⟩

/-- The references of every module that is assembled, also from a text with errors, are about words of
their own that hold the constant parts. -/
theorem assembleLines_references {s : Settings} {name : String} {text : List String}
    {r : Reported Module} (h : assembleLines s name text = .ok r) :
    (∃ ps, r.value.ListsReferences ps) ∧
      (r.value.Sized → (r.value.references.map (·.location)).Nodup) := by
  obtain ⟨ps, hps⟩ := listsReferences_assembleLines h
  exact ⟨⟨ps, hps⟩, hps.nodup_locations⟩

def manyReferences : List String :=
  ["la $t0, table+4", "j done", "beq $t0, $t1, far", "addi $t0, $t1, 0x", ".data",
    "table: .word done, table+8, 5", ".text", "done: nop"]

theorem assembleLines_manyReferences : ∃ r ps,
    assembleLines {} "a.s" manyReferences = .ok r ∧ 0 < errorCount r.diagnostics ∧
    r.value.references.map (·.kind) = [.high16, .low16, .jump26, .pcrel16, .absolute32, .absolute32] ∧
    r.value.ListsReferences ps := by
  have hrun : (assembleLines {} "a.s" manyReferences).toOption.any fun r =>
      decide (0 < errorCount r.diagnostics) && decide (r.value.references.map (·.kind) =
        [.high16, .low16, .jump26, .pcrel16, .absolute32, .absolute32]) := by
    decide +kernel
  cases hr : assembleLines {} "a.s" manyReferences with
  | error e =>
    rw [hr] at hrun
    cases hrun
  | ok r =>
    rw [hr] at hrun
    have hboth : 0 < errorCount r.diagnostics ∧ r.value.references.map (·.kind) =
        [.high16, .low16, .jump26, .pcrel16, .absolute32, .absolute32] := by
      simpa [Except.toOption] using hrun
    obtain ⟨⟨ps, hps⟩, -⟩ := assembleLines_references hr
    exact ⟨r, ps, rfl, hboth.1, hboth.2, hps⟩

end MipsToolchain
