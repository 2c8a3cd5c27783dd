import MipsToolchain.Proofs.Link.Memory
import MipsToolchain.Proofs.ObjectFile.Programs

namespace MipsToolchain

open MipsToolchain.Module ObjectFile

namespace Isa

theorem toNat_lowWord_eq_iff (v : Int64) :
    ((lowWord v).toNat : Int) = v.toInt ↔ 0 ≤ v.toInt ∧ v.toInt < 2 ^ 32 := by
  have hlow := toNat_lowWord v
  omega

end Isa

namespace OutputSection

/-- Whether an address of 32 bits is left of one of a section. -/
def CoversWord (out : OutputSection) (w : UInt32) : Prop := ∃ a, out.Covers a ∧ UInt32.ofNat a = w

theorem toNat_of_coversWord {out : OutputSection} {w : UInt32} (h : out.CoversWord w)
    (hfit : out.finish ≤ 2 ^ 32) : out.Covers w.toNat := by
  obtain ⟨a, ha, rfl⟩ := h
  have hlt : a < 2 ^ 32 := ha.2.trans_le hfit
  rwa [UInt32.toNat_ofNat_of_lt' hlt]

theorem alignment_concatenate_le {ms : List Module} (h : ∀ m ∈ ms, m.Alignable) (n : Name) :
    (concatenate n ms).alignment ≤ maxAlignment := by
  have hfold : ∀ (ss : List Section) (a : Nat), a ≤ maxAlignment →
      (∀ s ∈ ss, s.alignment ≤ maxAlignment) →
      ss.foldl (fun a s => max a s.alignment) a ≤ maxAlignment := by
    intro ss
    induction ss with
    | nil => exact fun _ ha _ => ha
    | cons s ss ih =>
      intro a ha hss
      obtain ⟨hs, hss⟩ := List.forall_mem_cons.mp hss
      exact ih _ (Nat.max_le.mpr ⟨ha, hs⟩) hss
  refine hfold _ 0 (Nat.zero_le _) fun s hs => ?_
  obtain ⟨m, hm, hsec⟩ := List.mem_filterMap.mp hs
  exact h m hm s (List.mem_of_find?_eq_some hsec)

end OutputSection

namespace Layout

section Place

variable {text data : Nat} {ss : List OutputSection}

theorem place_cons (text data : Nat) (s : OutputSection) (ss : List OutputSection) :
    place text data (s :: ss) =
      let out := { s with address := alignUp (if s.flags.exec then text else data) (max s.alignment 2) }
      out :: place (if s.flags.exec then out.finish else text)
        (if s.flags.exec then data else out.finish) ss := by
  rw [place]
  split <;> rfl

theorem place_ordered (text data : Nat) (ss : List OutputSection) :
    (∀ s ∈ place text data ss, (if s.flags.exec then text else data) ≤ s.address) ∧
      (place text data ss).Pairwise fun s o => s.flags.exec = o.flags.exec → s.finish ≤ o.address := by
  induction ss generalizing text data with
  | nil => exact ⟨nofun, .nil⟩
  | cons s ss ih =>
    have hstart := le_alignUp (if s.flags.exec then text else data) (max s.alignment 2)
    rw [place_cons]
    dsimp only
    generalize alignUp (if s.flags.exec then text else data) (max s.alignment 2) = a at hstart ⊢
    have hend : a ≤ ({ s with address := a } : OutputSection).finish := Nat.le_add_right _ _
    obtain ⟨hrest, hpairs⟩ := ih
      (if s.flags.exec then ({ s with address := a } : OutputSection).finish else text)
      (if s.flags.exec then data else ({ s with address := a } : OutputSection).finish)
    refine ⟨List.forall_mem_cons.mpr ⟨hstart, fun o ho => le_trans ?_ (hrest o ho)⟩,
      List.pairwise_cons.mpr ⟨fun o ho hexec => le_trans ?_ (hrest o ho), hpairs⟩⟩
    · cases hs : s.flags.exec <;> cases ho : o.flags.exec <;>
        simp only [hs, if_true, if_false, Bool.false_eq_true] at hstart ⊢ <;> omega
    · change s.flags.exec = o.flags.exec at hexec
      rw [← hexec]
      cases s.flags.exec <;> simp

def lastOf (ss : List OutputSection) (exec : Bool) : Option OutputSection :=
  (ss.filter (·.flags.exec = exec)).getLast?

/-- All sections end below a bound if the last ones of both kinds do. -/
theorem finish_le_iff {bound : Nat}
    (h : ss.Pairwise fun s o => s.flags.exec = o.flags.exec → s.finish ≤ o.address) :
    (∀ s ∈ ss, s.finish ≤ bound) ↔ ∀ exec, ∀ s ∈ lastOf ss exec, s.finish ≤ bound := by
  constructor
  · intro hall exec s hs
    exact hall s (List.mem_of_mem_filter (List.mem_of_getLast? hs))
  · intro hlast s hs
    let same := ss.filter (·.flags.exec = s.flags.exec)
    have hmem : s ∈ same := List.mem_filter.mpr ⟨hs, by simp⟩
    have hpairs : same.Pairwise fun s o => s.flags.exec = o.flags.exec → s.finish ≤ o.address :=
      h.filter _
    obtain ⟨front, o, hsame⟩ := (List.eq_nil_or_concat' same).resolve_left (List.ne_nil_of_mem hmem)
    have ho : o ∈ lastOf ss s.flags.exec := by
      change same.getLast? = some o
      rw [hsame, List.getLast?_concat]
    rw [hsame, List.mem_append, List.mem_singleton] at hmem
    rcases hmem with hfront | rfl
    · have hexec : s.flags.exec = o.flags.exec := by
        have hmem : o ∈ same := hsame ▸ List.mem_concat_self
        simpa using (of_decide_eq_true (List.mem_filter.mp hmem).2).symm
      rw [hsame, List.pairwise_append] at hpairs
      have hle := hpairs.2.2 s hfront o (by simp) hexec
      exact (hle.trans (Nat.le_add_right _ _)).trans (hlast _ o ho)
    · exact hlast _ _ ho

/-- As long as sections are in the address space, the next one is not so far off that its address
is cut. -/
theorem finish_le_of_toUInt64 (ht : text ≤ 2 ^ 32) (hd : data ≤ 2 ^ 32)
    (ha : ∀ s ∈ ss, s.alignment ≤ maxAlignment)
    (h : ∀ s ∈ place text data ss, s.address.toUInt64.toNat + s.size ≤ 2 ^ 32) :
    ∀ s ∈ place text data ss, s.finish ≤ 2 ^ 32 := by
  induction ss generalizing text data with
  | nil => nofun
  | cons s ss ih =>
    obtain ⟨has, hass⟩ := List.forall_mem_cons.mp ha
    rw [place_cons] at h ⊢
    dsimp only at h ⊢
    have hblock : blockSize (max s.alignment 2) ≤ 2 ^ 16 :=
      Nat.pow_le_pow_right (by decide) (Nat.max_le.mpr ⟨has, by decide⟩)
    have hstart := alignUp_lt (if s.flags.exec then text else data) (max s.alignment 2)
    generalize alignUp (if s.flags.exec then text else data) (max s.alignment 2) = a at h hstart ⊢
    obtain ⟨hs, hrest⟩ := List.forall_mem_cons.mp h
    have hbase : (if s.flags.exec then text else data) ≤ 2 ^ 32 := by split <;> assumption
    have hlt : a < 2 ^ 64 := by omega
    have hfinish : ({ s with address := a } : OutputSection).finish ≤ 2 ^ 32 := by
      change a % 2 ^ 64 + s.size ≤ 2 ^ 32 at hs
      rwa [Nat.mod_eq_of_lt hlt] at hs
    refine List.forall_mem_cons.mpr ⟨hfinish, ih ?_ ?_ hass hrest⟩
    · split <;> assumption
    · split <;> assumption

end Place

end Layout

/-- Whether a symbol is at a byte that its module has in a section. -/
def Global.Inside (g : Global) (ms : List Module) : Prop :=
  ∃ m a, ms[g.module]? = some m ∧ g.symbol.address = some a ∧ a.isRelocatable ∧
    0 ≤ a.value.toInt ∧ a.value.toInt < m.offset a.sectionName

theorem Layout.Arranges.address_inside {l : Layout} {ms : List Module} (h : l.Arranges ms)
    (hfit : ∀ out ∈ l.sections, out.finish ≤ 2 ^ 32) {g : Global} (hg : g.Inside ms)
    (hresolve : ∀ a, g.symbol.address = some a → l.resolve g.module a = .ok g.address) :
    0 ≤ g.address.toInt ∧ g.address.toInt < 2 ^ 32 := by
  obtain ⟨m, a, hm, ha, hrel, hl, hb⟩ := hg
  obtain ⟨out, start, hout, hstart, haddress⟩ := (Layout.resolve_eq_ok hrel).mp (hresolve a ha)
  obtain ⟨hmem, hname⟩ := Layout.mem_of_section? hout
  have hinside := h.inside hmem hm hstart
  have hend := hfit out hmem
  unfold OutputSection.finish at hend
  rw [hname] at hinside
  have hbase : (Int64.ofNat (out.address + start)).toInt = out.address + start :=
    (Int64.toInt_ofNat_of_lt (by omega)).trans (Int.natCast_add _ _)
  have hsum : g.address.toInt = out.address + start + a.value.toInt := by
    rw [← haddress, Int64.toInt_add, hbase]
    exact Int.bmod_eq_of_le (by omega) (by omega)
  omega

namespace Program

/-- Whether all sections of a program are in an address space of 32 bits. -/
def InAddressSpace (p : Program) : Prop :=
  ∀ t ∈ p.image.sections, t.virtualAddress.toNat + t.length ≤ 2 ^ 32

instance (p : Program) : Decidable p.InAddressSpace :=
  inferInstanceAs (Decidable (∀ t ∈ p.image.sections, _))

/-- What 32 bits say exactly about a program. -/
structure Exact (p : Program) (l : Layout) (ms : List Module) : Prop where
  -- A section without contents may start where the address space ends.
  starts : ∀ t ∈ p.image.sections, t.length ≠ 0 →
    t.virtualAddress.toUInt32.toNat = t.virtualAddress.toNat
  inside : ∀ g ∈ p.globals.entries, g.Inside ms →
    0 ≤ g.address.toInt ∧ g.address.toInt < 2 ^ 32
  apart : l.sections.Pairwise fun o o' => ¬ ∃ w, o.CoversWord w ∧ o'.CoversWord w

/-- What is left of addresses where a program has 32 bits for them. -/
structure Narrowed (p : Program) (s : Settings) : Prop where
  entry : p.entry = ((p.globals.get? s.link.entry).map fun g => Isa.lowWord g.address).getD
    s.link.textBase
  addresses : ∀ n, p.address? n = (p.globals.get? n).map fun g => Isa.lowWord g.address
  definitions : p.tables.definitions.map (·.value) =
    p.image.sections.map (·.virtualAddress.toUInt32) ++
      p.globals.sorted.map fun g => Isa.lowWord g.address
  file : ∀ data, marshalProgram p = .ok data →
    data = assemble p.image p.tables executableFlag p.entry
  exact : ∀ g ∈ p.globals.entries, ((Isa.lowWord g.address).toNat : Int) = g.address.toInt ↔
    0 ≤ g.address.toInt ∧ g.address.toInt < 2 ^ 32

end Program

section Link

variable {s : Settings} {ms : List Module} {p : Program}

theorem Globals.Distinct.find?_sorted {gs : Globals} (h : gs.Distinct) (n : Name) :
    gs.sorted.find? (·.name = n) = gs.get? n := by
  cases hg : gs.get? n with
  | none =>
    have hnone := List.find?_eq_none.mp hg
    exact List.find?_eq_none.mpr fun g hmem => hnone g (Globals.mem_sorted.mp hmem)
  | some g =>
    obtain rfl : g.name = n := by simpa using List.find?_some hg
    exact find?_of_nodup Global.name h.nodup_sorted
      (Globals.mem_sorted.mpr (List.mem_of_find?_eq_some hg))

theorem narrowed_of_link (h : (link s ms).Gives (some p)) : p.Narrowed s := by
  obtain ⟨hdistinct, -, hsymbols, -⟩ := globals_of_link h
  obtain ⟨ds, h⟩ := h
  obtain ⟨gs, out, hl⟩ := linking_of_link h rfl
  refine ⟨?_, fun n => ?_, ?_, fun data hdata => (Program.marshalProgram_eq_ok.mp hdata).2.2,
    fun g _ => Isa.toNat_lowWord_eq_iff _⟩
  · rw [hl.entry, hl.table, resolveEntry]
    cases gs.value.get? s.link.entry <;> rfl
  · have hfind : p.image.symbol? n = (p.globals.get? n).map Global.exported := by
      rw [Module.symbol?, hsymbols, List.find?_map, ← hdistinct.find?_sorted]
      rfl
    rw [Program.address?, hfind]
    cases p.globals.get? n <;> rfl
  · rw [Program.tables, List.map_append, List.map_map, List.map_map, hsymbols, List.map_map]
    rfl

theorem forall_sections_of_link (h : (link s ms).Gives (some p)) {P : Nat → Nat → Prop} :
    (∀ t ∈ p.image.sections, P t.virtualAddress.toNat t.length) ↔
      ∀ out ∈ (Layout.ofModules s.link ms).sections, P out.address.toUInt64.toNat out.size := by
  obtain ⟨-, -, -, hdistinct⟩ := globals_of_link h
  obtain ⟨ds, h⟩ := h
  obtain ⟨res, hres, -, himg⟩ := link_eq_ok h rfl
  have hshows := Layout.shows_image himg (alike_linkModules hres)
  have hsection : ∀ out ∈ (Layout.ofModules s.link ms).sections, ∀ t,
      p.image.section? out.name = some t →
        t.virtualAddress = out.address.toUInt64 ∧ t.length = out.size := by
    intro out hout t ht
    have haddress := hshows.addresses out hout
    have hsize := hshows.sizes out hout
    rw [ht] at haddress
    rw [offset_of_section? ht] at hsize
    exact ⟨Option.some.inj haddress, hsize⟩
  constructor
  · intro hall out hout
    obtain ⟨t, ht⟩ := Option.isSome_iff_exists.mp ((hshows.sections _).mpr ⟨out, hout, rfl⟩)
    obtain ⟨haddress, hsize⟩ := hsection out hout t ht
    rw [← haddress, ← hsize]
    exact hall t (List.mem_of_find?_eq_some ht)
  · intro hall t ht
    have hfind : p.image.section? t.name = some t := find?_of_nodup Section.name hdistinct ht
    obtain ⟨out, hout, hname⟩ := (hshows.sections t.name).mp (by rw [hfind]; rfl)
    obtain ⟨haddress, hsize⟩ := hsection out hout t (by rw [hname, hfind])
    rw [haddress, hsize]
    exact hall out hout

/-- A program is in the address space just if its last sections are, and 32 bits then say all about
it. Linking does not ask for that. In any case addresses are cut to 32 bits where they are given. -/
theorem addressSpace_of_link (h : (link s ms).Gives (some p)) (ha : ∀ m ∈ ms, m.Alignable) :
    (p.InAddressSpace ↔ ∀ exec, ∀ out ∈ Layout.lastOf (Layout.ofModules s.link ms).sections exec,
      out.finish ≤ 2 ^ 32) ∧
    (p.InAddressSpace → p.Exact (Layout.ofModules s.link ms) ms) ∧ p.Narrowed s := by
  have hfits : p.InAddressSpace ↔
      ∀ out ∈ (Layout.ofModules s.link ms).sections, out.finish ≤ 2 ^ 32 := by
    -- An address that is cut to 64 bits could be small again, but no section is so far off.
    refine (forall_sections_of_link h (P := fun a n => a + n ≤ 2 ^ 32)).trans
      ⟨?_, fun hall out hout => ?_⟩
    · refine Layout.finish_le_of_toUInt64 (UInt32.toNat_lt _).le (UInt32.toNat_lt _).le
        fun out hout => ?_
      obtain ⟨n, -, rfl⟩ := List.mem_map.mp hout
      exact OutputSection.alignment_concatenate_le ha n
    · have hle := hall out hout
      unfold OutputSection.finish at hle
      change out.address % 2 ^ 64 + out.size ≤ 2 ^ 32
      omega
  refine ⟨hfits.trans (Layout.finish_le_iff (Layout.place_ordered _ _ _).2), fun hp => ⟨?_, ?_, ?_⟩,
    narrowed_of_link h⟩
  · intro t ht hlen
    have hle := hp t ht
    rw [UInt64.toNat_toUInt32]
    exact Nat.mod_eq_of_lt (by omega)
  · intro g hg hinside
    obtain ⟨-, hlists, -⟩ := globals_of_link h
    refine (Layout.arranges_ofModules s.link ms).address_inside (hfits.mp hp) hinside fun a ha => ?_
    obtain ⟨m, a', -, -, -, ha', hresolve⟩ := hlists.sourced g (Globals.mem_sorted.mpr hg)
    cases ha.symm.trans ha'
    exact hresolve
  · obtain ⟨ds, h⟩ := h
    refine (separate_of_link h).imp_of_mem fun {o o'} ho ho' hsep => ?_
    rintro ⟨w, hw, hw'⟩
    exact hsep ⟨w.toNat, OutputSection.toNat_of_coversWord hw (hfits.mp hp o ho),
      OutputSection.toNat_of_coversWord hw' (hfits.mp hp o' ho')⟩

end Link

def lateText : Source.File := ⟨"a.s", [".globl main", "nop", "nop", "main: nop", ".data", ".word 1"]⟩

/-- The entry is then where the data is. -/
theorem addressSpace_of_link_lateText :
    let s : Settings := { link := { textBase := 0xfffffffc, dataBase := 4 } }
    ∃ ms p, build s [lateText] = some (ms, p) ∧ (link s ms).Gives (some p) ∧
      (∀ m ∈ ms, m.Alignable) ∧ ¬ p.InAddressSpace ∧
      (∃ g, p.globals.get? "main" = some g ∧ g.symbol.type = .label ∧ g.Inside ms ∧
        g.address = 0x100000004) ∧
      p.address? "main" = some 4 ∧ p.entry = 4 ∧
      ∃ out, Layout.lastOf (Layout.ofModules s.link ms).sections true = some out ∧
        out.finish = 0x100000008 := by
  intro s
  have hbuild : (build s [lateText]).any fun x => x.1.all isSized &&
      decide (∀ m ∈ x.1, m.Alignable) &&
      (x.2.globals.get? "main").any (fun g => g.symbol.type == .label && g.address == 0x100000004 &&
        g.module == 0 && g.symbol.address == some (.relative ".text" 8)) &&
      x.1[0]?.any (fun m => m.offset ".text" == 12) &&
      (Layout.lastOf (Layout.ofModules s.link x.1).sections true).any
        (fun out => out.finish == 0x100000008) := by
    decide +kernel
  obtain ⟨⟨ms, p⟩, hb, hx⟩ := (Option.any_eq_true _ _).mp hbuild
  simp only [Bool.and_eq_true, decide_eq_true_eq] at hx
  obtain ⟨⟨⟨⟨hsized, ha⟩, hmain⟩, hmodule⟩, hlast⟩ := hx
  obtain ⟨g, hg, hx⟩ := (Option.any_eq_true _ _).mp hmain
  obtain ⟨m, hm, hlen⟩ := (Option.any_eq_true _ _).mp hmodule
  obtain ⟨out, hout, hfinish⟩ := (Option.any_eq_true _ _).mp hlast
  simp only [Bool.and_eq_true, beq_iff_eq] at hx hlen hfinish
  obtain ⟨⟨⟨htype, haddress⟩, hindex⟩, hplace⟩ := hx
  have hgives : (link s ms).Gives (some p) := (linked_of_build hb hsized).linked
  obtain ⟨hiff, -, hnarrowed⟩ := addressSpace_of_link hgives ha
  have hinside : g.Inside ms := by
    refine ⟨m, .relative ".text" 8, by rw [hindex]; exact hm, hplace, rfl, by decide, ?_⟩
    change (8 : Int) < m.offset ".text"
    omega
  refine ⟨ms, p, hb, hgives, ha, fun hp => ?_, ⟨g, hg, htype, hinside, haddress⟩, ?_, ?_, out, hout,
    hfinish⟩
  · have hle := hiff.mp hp true out hout
    omega
  · rw [hnarrowed.addresses, hg, Option.map_some, haddress]
    rfl
  · have hentry : p.globals.get? s.link.entry = some g := hg
    rw [hnarrowed.entry, hentry, Option.map_some, haddress]
    rfl

end MipsToolchain
