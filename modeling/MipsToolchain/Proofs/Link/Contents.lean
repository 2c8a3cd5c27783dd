import MipsToolchain.Proofs.Link.Shapes

namespace MipsToolchain

open MipsToolchain.Module OutputSection

theorem Module.alike_relocate {m m' : Module} {r : Reference} {delta : Int64}
    (h : (m.relocate r delta).run = .ok (.ok m')) : Alike m m' := by
  obtain ⟨s, w, w', hs, hle, -, -, rfl⟩ := relocate_eq_ok h
  exact alike_updateSection _ (fun s => shape_putBytes s _ _) m

section Run

variable {l : Layout} {gs : Globals} {i : Nat}

theorem alike_linkReference {m : Module} {r : Reference} {res : Reported Module}
    (h : linkReference l gs i m r = .ok res) : Alike m res.value := by
  rw [linkReference_eq] at h
  split at h
  · cases h
  · cases h
    exact .refl m
  · split at h
    · cases h
    · split at h
      · cases h
      · next hrel =>
        cases h
        exact alike_relocate hrel
      · cases h
        exact .refl m

theorem alike_linkReferences {m : Module} {rs : List Reference} {res : Reported Module}
    (h : linkReferences l gs i rs m = .ok res) : Alike m res.value := by
  induction rs generalizing m res with
  | nil =>
    cases Guarded.pure_eq_ok.mp h
    exact .refl m
  | cons r rs ih =>
    obtain ⟨a, b, ha, hb, rfl⟩ := Guarded.bind_eq_ok.mp h
    have hrest : Alike a.value b.value := ih hb
    exact (alike_linkReference ha).trans hrest

theorem alike_linkModules {ms : List Module} {res : Reported (List Module)}
    (h : linkModules l gs i ms = .ok res) : List.Forall₂ Alike ms res.value := by
  induction ms generalizing i res with
  | nil =>
    cases Guarded.pure_eq_ok.mp h
    exact .nil
  | cons m ms ih =>
    obtain ⟨a, b, ha, hb, rfl⟩ := Guarded.bind_eq_ok.mp h
    obtain ⟨c, d, hc, hd, rfl⟩ := Guarded.bind_eq_ok.mp hb
    cases Guarded.pure_eq_ok.mp hd
    exact .cons (alike_linkReferences ha) (ih hc)

end Run

namespace Layout

/-- The bytes that modules contribute to a section from a given offset on, with zeros between them. -/
def partBytes (n : Name) : Nat → List Module → List UInt8
  | _, [] => []
  | cursor, m :: ms =>
    match m.section? n with
    | none => partBytes n cursor ms
    | some s =>
      let start := alignUp cursor s.alignment
      List.replicate (start - cursor) 0 ++ (s.contents ++ partBytes n (start + s.length) ms)

theorem appends_copyParts {n : Name} {ms : List Module} {img img' : Module} {u : Unit} {s : Section}
    (h : img.perform (copyParts n (contributions n (img.offset n) ms).1 ms) = .ok (u, img'))
    (hs : img.section? n = some s) : Appends n (partBytes n (img.offset n) ms) img img' := by
  induction ms generalizing img s with
  | nil =>
    cases h
    exact .refl hs
  | cons m ms ih =>
    rw [contributions] at h
    rw [partBytes]
    cases ht : m.section? n with
    | none =>
      rw [ht] at h
      rcases copyParts_cons_eq_ok h with ⟨-, h⟩ | ⟨t, -, -, -, ht', -⟩
      · exact ih h hs
      · cases ht.symm.trans ht'
    | some t =>
      rw [ht] at h
      rcases copyParts_cons_eq_ok h with ⟨ht', -⟩ | ⟨t', k, m₁, m₂, ht', hpad, hstart, hadd, h⟩
      · cases ht.symm.trans ht'
      · cases ht.symm.trans ht'
        obtain ⟨t₂, ht₂⟩ := Option.isSome_iff_exists.mp hadd.present
        have hend : m₂.offset n = alignUp (img.offset n) t.alignment + t.length := by
          rw [hadd.offset, hstart]
          rfl
        have hlen : k = alignUp (img.offset n) t.alignment - img.offset n := by
          rw [← hstart, hpad.offset, List.length_replicate, Nat.add_sub_cancel_left]
        rw [← hend] at h
        have hrest := (hpad.trans hadd).trans (ih h ht₂)
        rw [hlen, hend, List.append_assoc] at hrest
        exact hrest

theorem getElem?_partBytes {n : Name} {ms : List Module} {cursor k : Nat} {b : UInt8}
    (h : (partBytes n cursor ms)[k]? = some b) : b = 0 ∨ ∃ (i start : Nat) (m : Module),
      ms[i]? = some m ∧ (contributions n cursor ms).1[i]? = some start ∧ start ≤ cursor + k ∧
      (m.contentsOf n)[cursor + k - start]? = some b := by
  induction ms generalizing cursor k with
  | nil => cases h
  | cons m ms ih =>
    rw [partBytes] at h
    rw [contributions]
    cases ht : m.section? n with
    | none =>
      rw [ht] at h
      obtain hzero | ⟨i, start, m', hm, hstart, hk⟩ := ih h
      · exact .inl hzero
      · exact .inr ⟨i + 1, start, m', hm, hstart, hk⟩
    | some t =>
      rw [ht] at h
      dsimp only at h ⊢
      have hle := le_alignUp cursor t.alignment
      -- A byte is in the padding, in the part of this module, or behind it.
      rw [List.getElem?_append, List.length_replicate] at h
      split at h
      · exact .inl (List.eq_of_mem_replicate (List.mem_of_getElem? h))
      · next hpad =>
        rw [List.getElem?_append] at h
        split at h
        · have hstart : alignUp cursor t.alignment ≤ cursor + k := by omega
          refine .inr ⟨0, _, m, rfl, rfl, hstart, ?_⟩
          rw [contentsOf_eq ht, ← h]
          congr 1
          omega
        · next hpart =>
          have hlen : t.contents.length = t.length := rfl
          obtain hzero | ⟨i, start, m', hm, hstart, hk, hb⟩ := ih h
          · exact .inl hzero
          · have hpos : alignUp cursor t.alignment + t.length +
                (k - (alignUp cursor t.alignment - cursor) - t.contents.length) = cursor + k := by
              omega
            rw [hpos] at hk hb
            exact .inr ⟨i + 1, start, m', hm, hstart, hk, hb⟩

theorem contents_copySection {ms : List Module} {out : OutputSection} {img img' : Module} {u : Unit}
    (h : img.perform (copySection ms out) = .ok (u, img'))
    (ho : out.offsets = (contributions out.name 0 ms).1) (hs : img.section? out.name = none) :
    img'.contentsOf out.name = partBytes out.name 0 ms := by
  obtain ⟨s, m₁, m₂, happ, hs₁, -, hplace, h⟩ := copySection_eq_ok h
  have hcontents : m₂.contentsOf out.name = [] := by
    have hold : m₁.contentsOf out.name = [] := by
      rw [happ.contents]
      simp [contentsOf, hs]
    rw [contentsOf_eq hplace, ← hold, contentsOf_eq hs₁]
    rfl
  have hempty : m₂.offset out.name = 0 := by
    rw [← length_contentsOf, hcontents, List.length_nil]
  rw [ho, ← hempty] at h
  have hparts := (appends_copyParts h hplace).contents
  rw [hcontents, hempty, List.nil_append] at hparts
  exact hparts

theorem contents_copySections {ms : List Module} {outs : List OutputSection} {img img' : Module}
    {u : PUnit} (h : img.perform (outs.forM (copySection ms)) = .ok (u, img'))
    (hn : (outs.map OutputSection.name).Nodup)
    (ho : ∀ out ∈ outs, out.offsets = (contributions out.name 0 ms).1)
    (hs : ∀ out ∈ outs, img.section? out.name = none) :
    ∀ out ∈ outs, img'.contentsOf out.name = partBytes out.name 0 ms := by
  induction outs generalizing img with
  | nil => simp
  | cons out outs ih =>
    rw [perform_forM_cons] at h
    obtain ⟨⟨v, m₁⟩, hout, h⟩ := except_bind_eq_ok.mp h
    rw [List.map_cons, List.nodup_cons] at hn
    rw [List.forall_mem_cons] at ho hs
    have hothers := (copySection_spec hout).2.1
    have hframe := (copySections_spec h hn.2).2.1
    refine List.forall_mem_cons.mpr ⟨?_, ih h hn.2 ho.2 fun o hmem => ?_⟩
    · rw [contentsOf, hframe out.name hn.1]
      exact contents_copySection hout ho.1 hs.1
    · have hne : o.name ≠ out.name := fun he => hn.1 (he ▸ List.mem_map_of_mem hmem)
      rw [hothers o.name hne]
      exact hs.2 o hmem

theorem section?_image {l : LinkSettings} {order : ByteOrder} {gs : Globals} {ms ms' : List Module}
    {img : Module} (h : (ofModules l ms).image order gs ms' = .ok img) {n : Name}
    (hn : n ∉ sectionNames ms) : img.section? n = none := by
  obtain ⟨m₁, m₂, hsections, -, -, hkeeps⟩ := image_eq_ok h
  rw [← names_ofModules l ms] at hn
  rw [hkeeps.section?]
  exact (copySections_spec hsections (nodup_names_ofModules l ms)).2.1 n hn

theorem contents_image {l : LinkSettings} {order : ByteOrder} {gs : Globals} {ms ms' : List Module}
    {img : Module} (h : (ofModules l ms).image order gs ms' = .ok img)
    (ha : List.Forall₂ Alike ms ms') {n : Name} (hn : n ∈ sectionNames ms) :
    img.contentsOf n = partBytes n 0 ms' := by
  obtain ⟨m₁, m₂, hsections, -, -, hkeeps⟩ := image_eq_ok h
  obtain ⟨out, hmem, rfl, -⟩ := section?_ofModules l hn
  rw [contentsOf, hkeeps.section?]
  exact contents_copySections hsections (nodup_names_ofModules l ms) (fun o ho => by
    rw [offsets_ofModules ho, contributions_congr ha]) (fun _ _ => rfl) out hmem

theorem sections_image {l : LinkSettings} {order : ByteOrder} {gs : Globals} {ms ms' : List Module}
    {img : Module} (h : (ofModules l ms).image order gs ms' = .ok img)
    (ha : List.Forall₂ Alike ms ms') (n : Name) :
    (img.section? n).map (fun s => (s.contents, s.virtualAddress)) =
      ((ofModules l ms).section? n).map fun out => (partBytes n 0 ms', out.address.toUInt64) := by
  by_cases hn : n ∈ sectionNames ms
  · obtain ⟨out, hmem, rfl, hout⟩ := section?_ofModules l hn
    obtain ⟨hplaced, -⟩ := (image_spec h (nodup_names_ofModules l ms)).2 out hmem
    obtain ⟨s, hs, haddress⟩ := Option.map_eq_some_iff.mp hplaced
    rw [hout, hs, Option.map_some, Option.map_some, haddress, ← contentsOf_eq hs,
      contents_image h ha hn]
  · rw [section?_image h hn, Option.map_none, eq_comm, Option.map_eq_none_iff]
    refine List.find?_eq_none.mpr fun out hmem heq => hn ?_
    rw [← names_ofModules l ms]
    exact List.mem_map.mpr ⟨out, hmem, by simpa using heq⟩

end Layout

end MipsToolchain
