import MipsToolchain.Proofs.Link.Contents
import MipsToolchain.Proofs.Object.Results

namespace MipsToolchain

open MipsToolchain.Module OutputSection

def Module.Alignable (m : Module) : Prop := ∀ s ∈ m.sections, s.alignment ≤ maxAlignment

instance (m : Module) : Decidable m.Alignable :=
  inferInstanceAs (Decidable (∀ s ∈ m.sections, s.alignment ≤ maxAlignment))

theorem Module.Alignable.of_alike {m m' : Module} (h : m.Alignable) (ha : Alike m m') :
    m'.Alignable := by
  intro s' hs'
  have hmem : s'.shape ∈ m'.sections.map Section.shape := List.mem_map_of_mem hs'
  rw [ha.shapes] at hmem
  obtain ⟨s, hs, hshape⟩ := List.mem_map.mp hmem
  have halign : s.alignment = s'.alignment := congrArg (·.2.2.1) hshape
  exact halign ▸ h s hs

theorem Module.alignable_of_alike {ms ms' : List Module} (h : List.Forall₂ Alike ms ms')
    (ha : ∀ m ∈ ms, m.Alignable) : ∀ m ∈ ms', m.Alignable := by
  induction h with
  | nil => exact ha
  | cons hm _ ih =>
    obtain ⟨halign, hrest⟩ := List.forall_mem_cons.mp ha
    exact List.forall_mem_cons.mpr ⟨halign.of_alike hm, ih hrest⟩

namespace Layout

variable {ms : List Module}

theorem eq_alignUp {k j boundary : Nat} (hle : k ≤ j) (hlt : j < k + blockSize boundary)
    (hd : blockSize boundary ∣ j) : j = alignUp k boundary := by
  have hle' := le_alignUp k boundary
  have hlt' := alignUp_lt k boundary
  have hd' := dvd_alignUp k boundary
  rcases Nat.le_total j (alignUp k boundary) with h | h
  · have hzero := Nat.eq_zero_of_dvd_of_lt (Nat.dvd_sub hd' hd) (by omega)
    omega
  · have hzero := Nat.eq_zero_of_dvd_of_lt (Nat.dvd_sub hd hd') (by omega)
    omega

theorem exists_align {m : Module} {n : Name} {s : Section} {boundary : Nat}
    (hm : m.finalized = false) (hs : m.section? n = some s) (hb : boundary ≤ maxAlignment) :
    ∃ m', m.perform (align n boundary) = .ok ((), m') := by
  rw [align, if_neg (by omega)]
  dsimp only
  rw [perform_bind, perform_addSection_of_some hs, Except.bind]
  dsimp only
  rw [perform_bind, perform_modify, Except.bind]
  dsimp only
  have hraised := section?_updateSection m n n
    (fun s => { s with alignment := max s.alignment boundary }) fun _ => rfl
  rw [if_pos rfl, hs, Option.map_some] at hraised
  split
  · have hfilled := perform_append_of_some (by exact hm) hraised
      (zeroBytes (blockSize boundary - s.length % blockSize boundary))
    rw [perform_discard, perform_reserve (filling_le_addressSpace hb s.length)]
    exact ⟨_, except_map_eq_ok.mpr ⟨_, hfilled, rfl⟩⟩
  · exact ⟨_, rfl⟩

theorem exists_copyParts {n : Name} {img : Module} {s : Section} (h : ∀ m ∈ ms, m.Alignable)
    (hf : img.finalized = false) (hs : img.section? n = some s) :
    ∃ img', img.perform (copyParts n (contributions n (img.offset n) ms).1 ms) =
      .ok ((), img') := by
  -- The offsets are computed along with the copy, from the end of the image so far.
  induction ms generalizing img s with
  | nil => exact ⟨img, rfl⟩
  | cons m ms ih =>
    obtain ⟨hm, hms⟩ := List.forall_mem_cons.mp h
    rw [contributions]
    cases ht : m.section? n with
    | none =>
      dsimp only
      rw [copyParts, ht]
      exact ih hms hf hs
    | some t =>
      dsimp only
      rw [copyParts, ht]
      dsimp only
      have halign : t.alignment ≤ maxAlignment := hm t (List.mem_of_find?_eq_some ht)
      obtain ⟨m₁, hm₁⟩ := exists_align hf hs halign
      obtain ⟨⟨pad, hpad⟩, hd, hlt⟩ := appends_align hm₁
      obtain ⟨t₁, ht₁⟩ := Option.isSome_iff_exists.mp hpad.present
      have hf₁ : m₁.finalized = false := hpad.finalized.trans hf
      have hstart : m₁.offset n = alignUp (img.offset n) t.alignment :=
        eq_alignUp (by rw [hpad.offset]; omega) hlt hd
      have hadd := perform_append_of_some hf₁ ht₁ t.bytes
      have happ := (appends_append hadd).2
      obtain ⟨t₂, ht₂⟩ := Option.isSome_iff_exists.mp happ.present
      obtain ⟨img', himg⟩ := ih hms (happ.finalized.trans hf₁) ht₂
      have hend : (m₁.updateSection n (·.append t.bytes)).offset n =
          alignUp (img.offset n) t.alignment + t.length := by
        rw [happ.offset, hstart]
        rfl
      rw [hend] at himg
      refine ⟨img', ?_⟩
      rw [perform_bind, hm₁, Except.bind]
      dsimp only
      rw [perform_bind, perform_get, Except.bind]
      dsimp only
      rw [if_neg (not_not.mpr hstart), perform_bind, perform_discard, hadd]
      exact himg

theorem symbols_copySection {out : OutputSection} {img img' : Module} {u : Unit}
    (h : img.perform (copySection ms out) = .ok (u, img')) :
    img'.symbols = img.symbols ∧ img'.finalized = img.finalized := by
  obtain ⟨s, m₁, m₂, happ, -, rfl, hplace, h⟩ := copySection_eq_ok h
  obtain ⟨⟨bs, hbs⟩, -⟩ := copyParts_spec h hplace
  exact ⟨hbs.symbols.trans happ.symbols, hbs.finalized.trans happ.finalized⟩

theorem symbols_copySections {outs : List OutputSection} {img img' : Module} {u : PUnit}
    (h : img.perform (outs.forM (copySection ms)) = .ok (u, img')) :
    img'.symbols = img.symbols ∧ img'.finalized = img.finalized :=
  perform_forM_induction (P := fun m => m.symbols = img.symbols ∧ m.finalized = img.finalized)
    (fun _ _ _ hout h => ⟨(symbols_copySection hout).1.trans h.1,
      (symbols_copySection hout).2.trans h.2⟩) h ⟨rfl, rfl⟩

theorem exists_copySection {out : OutputSection} {img : Module} (h : ∀ m ∈ ms, m.Alignable)
    (hf : img.finalized = false) (hs : img.section? out.name = none)
    (ho : out.offsets = (contributions out.name 0 ms).1) :
    ∃ img', img.perform (copySection ms out) = .ok ((), img') := by
  have hplace := section?_updateSection (img.addNew ⟨out.name, out.flags, 0, 0, .empty⟩) out.name
    out.name ({ · with virtualAddress := out.address.toUInt64 }) fun _ => rfl
  rw [if_pos rfl, section?_addNew hs, if_pos rfl, Option.map_some] at hplace
  obtain ⟨img', himg⟩ := exists_copyParts h (by exact hf) hplace
  refine ⟨img', ?_⟩
  rw [copySection, perform_bind, perform_discard, perform_addSection_of_none hf hs]
  dsimp only [Except.map, Except.bind]
  rw [perform_bind, perform_modify, Except.bind]
  dsimp only
  rw [ho]
  rw [offset_of_section? hplace] at himg
  exact himg

theorem exists_copySections {outs : List OutputSection} {img : Module} (h : ∀ m ∈ ms, m.Alignable)
    (hf : img.finalized = false) (hn : (outs.map OutputSection.name).Nodup)
    (ho : ∀ out ∈ outs, out.offsets = (contributions out.name 0 ms).1)
    (hs : ∀ out ∈ outs, img.section? out.name = none) :
    ∃ img', img.perform (outs.forM (copySection ms)) = .ok ((), img') := by
  induction outs generalizing img with
  | nil => exact ⟨img, rfl⟩
  | cons out outs ih =>
    rw [List.map_cons, List.nodup_cons] at hn
    obtain ⟨ho, hos⟩ := List.forall_mem_cons.mp ho
    obtain ⟨hs, hss⟩ := List.forall_mem_cons.mp hs
    obtain ⟨m₁, hm₁⟩ := exists_copySection h hf hs ho
    have hothers := (copySection_spec hm₁).2.1
    obtain ⟨img', himg⟩ := ih ((symbols_copySection hm₁).2.trans hf) hn.2 hos fun o hmem => by
      rw [hothers o.name fun he => hn.1 (he ▸ List.mem_map_of_mem hmem)]
      exact hss o hmem
    refine ⟨img', ?_⟩
    rw [perform_forM_cons, hm₁]
    exact himg

end Layout

end MipsToolchain
