import MipsToolchain.Proofs.Assembly.References
import MipsToolchain.Proofs.Link.Equivalence
import MipsToolchain.Proofs.Link.References

namespace MipsToolchain

open MipsToolchain.Module

namespace SplitsPaired

variable {rs qs : List Reference}

theorem append (h : SplitsPaired rs) (h' : SplitsPaired qs) : SplitsPaired (rs ++ qs) := by
  induction rs with
  | nil => exact h'
  | cons r rs ih =>
    refine ⟨fun hk => ?_, ih h.2⟩
    obtain ⟨q, hq, hlower⟩ := h.1 hk
    exact ⟨q, List.mem_append_left _ hq, hlower⟩

theorem filter (h : SplitsPaired rs) (p : Name → Bool) :
    SplitsPaired (rs.filter fun r => p r.symbol) := by
  induction rs with
  | nil => exact h
  | cons r rs ih =>
    rw [List.filter_cons]
    split
    · next hp =>
      refine ⟨fun hk => ?_, ih h.2⟩
      obtain ⟨q, hq, hkind, hloc, hsymbol⟩ := h.1 hk
      exact ⟨q, List.mem_filter.mpr ⟨hq, hsymbol ▸ hp⟩, hkind, hloc, hsymbol⟩
    · exact ih h.2

theorem bare (h : SplitsPaired rs) : SplitsPaired (rs.map Reference.bare) := by
  induction rs with
  | nil => exact h
  | cons r rs ih =>
    refine ⟨fun hk => ?_, ih h.2⟩
    obtain ⟨q, hq, hlower⟩ := h.1 hk
    exact ⟨q.bare, List.mem_map_of_mem hq, hlower⟩

-- The lower half is among the references behind the upper one, so its word is clear of those before.
theorem precedes (h : SplitsPaired rs) (hd : rs.Pairwise Reference.Disjoint) :
    rs.Pairwise Reference.Precedes := by
  induction rs with
  | nil => exact .nil
  | cons q rs ih =>
    obtain ⟨hq, hrest⟩ := List.pairwise_cons.mp hd
    refine List.pairwise_cons.mpr ⟨fun r hr => ⟨(hq r hr).symm, fun hk => ?_⟩, ih h.2 hrest⟩
    obtain ⟨p, hp, -, hloc, -⟩ := h.2.exists_lower hr hk
    have hlower := (hq p hp).symm
    rw [Reference.Disjoint, hloc] at hlower
    exact hlower

theorem of_paired {ps : List (Reference × Nat)} (hp : Reference.Paired ps)
    (hl : ∀ p ∈ ps, p.1.location = .relative p.1.location.sectionName (Int64.ofNat p.2)) :
    SplitsPaired (ps.map (·.1)) := by
  induction ps with
  | nil => trivial
  | cons p ps ih =>
    obtain ⟨hloc, hlocs⟩ := List.forall_mem_cons.mp hl
    refine ⟨fun hk => ?_, ih hp.2 hlocs⟩
    obtain ⟨q, hq, hkind, hsection, hsymbol, -⟩ := hp.1 hk
    have hmem := List.mem_of_head? hq
    refine ⟨q, List.mem_map.mpr ⟨_, hmem, rfl⟩, hkind, ?_, hsymbol⟩
    calc q.location = .relative q.location.sectionName (Int64.ofNat (p.2 + 4)) := hlocs _ hmem
      _ = (Address.relative p.1.location.sectionName (Int64.ofNat p.2)).add 4 := by
        rw [hsection, EncodedWord.add_four_relative]
      _ = p.1.location.add 4 := by rw [← hloc]

end SplitsPaired

theorem Module.ListsReferences.splitsPaired {m : Module} {ps : List (Reference × Nat)}
    (h : m.ListsReferences ps) : SplitsPaired m.references := by
  rw [← h.references]
  exact .of_paired h.paired fun p hp => (h.refers p hp).location

end MipsToolchain
