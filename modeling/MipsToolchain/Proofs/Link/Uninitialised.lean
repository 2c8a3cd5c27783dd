import MipsToolchain.Proofs.Link.Contents
import MipsToolchain.Proofs.Link.Transfers

namespace MipsToolchain

open Diagnostic Encoder MipsToolchain.Module

def InInstruction (s : Settings) (f : Source.File) (n : Name) (k : Nat) : Prop :=
  ∃ loc step, Contains s f loc step ∧ loc.sectionName = n ∧ loc.offset ≤ k ∧ k < loc.offset + 4

section Assembled

variable {s : Settings} {f : Source.File} {a : Reported Module} {n : Name}

theorem issued_of_contains (h : assembleFile s f = .ok a) (he : errorCount a.diagnostics = 0)
    (hs : a.value.Sized) {loc : Address} {step : MachineStep} (hc : Contains s f loc step) :
    Environment.Issued s.encoder a.value (loc, step) := by
  obtain ⟨-, ⟨ps, hps, hissued⟩, -⟩ := assembleFile_spec h he
  obtain ⟨steps, hsteps, hmem⟩ := hc
  cases hps.unique hsteps
  exact hissued hs _ hmem

theorem inInstruction_of_byte? (h : assembleFile s f = .ok a) (he : errorCount a.diagnostics = 0)
    (hs : a.value.Sized) (hn : (a.value.flagsOf n).nobits) {k : Nat} {b : UInt8}
    (hb : a.value.byte? n k = some b) (hz : b ≠ 0) : InInstruction s f n k := by
  obtain ⟨ps, hps, hfills⟩ := fills_assembleFile h he
  obtain hold | hzero | ⟨o, ho, hle, hlt⟩ := hfills.bytes n hn k b hb
  · cases hold
  · exact absurd hzero hz
  · obtain ⟨⟨loc, step⟩, hmem, rfl⟩ := List.mem_map.mp ho
    have hk := (lt_offset_of_byte? hb).trans (hs n)
    have hoffset := Address.offset_inSection (n := n) (Nat.lt_of_le_of_lt hle hk)
    exact ⟨_, step, ⟨ps, hps, hmem⟩, rfl, by omega, by omega⟩

theorem inInstruction_of_covers (h : assembleFile s f = .ok a) (he : errorCount a.diagnostics = 0)
    (hn : (a.value.flagsOf n).nobits) {k : Nat} {r : Reference} (hr : r ∈ a.value.references)
    (hc : r.Covers n k) : InInstruction s f n k := by
  obtain ⟨ps, hps, hfills⟩ := fills_assembleFile h he
  obtain ⟨hname, hle, hlt⟩ := hc
  rcases hfills.references r hr with hold | ⟨-, hplace⟩
  · cases hold
  · obtain ⟨⟨loc, step⟩, hmem, hloc⟩ := List.mem_map.mp (hplace (hname ▸ hn))
    exact ⟨r.location, step, ⟨ps, hps, hloc ▸ hmem⟩, hname, hle, hlt⟩

theorem zero_of_wordIn? {m : Module} {o : ByteOrder} {k : Nat} {w : UInt32}
    (h : m.wordIn? o n k = some w) :
    w = 0 ↔ ∀ i < 4, ∀ b, m.byte? n (k + i) = some b → b = 0 := by
  obtain ⟨x₀, x₁, x₂, x₃, rfl, hbytes⟩ := wordIn?_eq_some h
  rw [ByteOrder.ofBytes_eq_zero_iff]
  constructor
  · rintro ⟨rfl, rfl, rfl, rfl⟩ i hi b hb
    rw [hbytes i hi] at hb
    have hmem := List.mem_of_getElem? hb
    simpa using hmem
  · intro hzero
    exact ⟨hzero 0 (by decide) _ (hbytes 0 (by decide)), hzero 1 (by decide) _ (hbytes 1 (by decide)),
      hzero 2 (by decide) _ (hbytes 2 (by decide)), hzero 3 (by decide) _ (hbytes 3 (by decide))⟩

theorem encodedAs_unique {p : Address × MachineStep} {w w' : EncodedWord} (h : EncodedAs p w)
    (h' : EncodedAs p w') : w = w' := by
  obtain ⟨ds, hw, -⟩ := h
  obtain ⟨ds', hw', -⟩ := h'
  cases hw.symm.trans hw'
  rfl

theorem inInstruction_of_untouched (h : assembleFile s f = .ok a)
    (he : errorCount a.diagnostics = 0) (hs : a.value.Sized) (hn : (a.value.flagsOf n).nobits)
    {m : Module} (hu : Untouched a.value.references a.value m) {k : Nat} {b : UInt8}
    (hb : m.byte? n k = some b) (hz : b ≠ 0) : InInstruction s f n k := by
  by_cases hc : ∃ r ∈ a.value.references, r.Covers n k
  · obtain ⟨r, hr, hcovers⟩ := hc
    exact inInstruction_of_covers h he hn hr hcovers
  · have hsame := hu.bytes n k fun r hr hcovers => hc ⟨r, hr, hcovers⟩
    rw [hb] at hsame
    exact inInstruction_of_byte? h he hs hn hsame.symm hz

theorem zero_iff_instructions (h : assembleFile s f = .ok a) (he : errorCount a.diagnostics = 0)
    (hs : a.value.Sized) (hn : (a.value.flagsOf n).nobits) :
    (∀ k b, a.value.byte? n k = some b → b = 0) ↔ ∀ loc step w, Contains s f loc step →
      loc.sectionName = n → EncodedAs (loc, step) w → w.value = 0 := by
  constructor
  · intro hzero loc step w hc hloc hw
    obtain ⟨w', hw', hstored⟩ := (issued_of_contains h he hs hc).word
    cases encodedAs_unique hw hw'
    have hword := hstored.word
    rw [hloc] at hword
    exact (zero_of_wordIn? hword).mpr fun i _ b hb => hzero _ b hb
  · intro hzero k b hb
    by_contra hne
    obtain ⟨loc, step, hc, rfl, hle, hlt⟩ := inInstruction_of_byte? h he hs hn hb hne
    obtain ⟨w, hw, hstored⟩ := (issued_of_contains h he hs hc).word
    have hbytes := (zero_of_wordIn? hstored.word).mp (hzero loc step w hc rfl hw)
    refine hne (hbytes (k - loc.offset) (by omega) b ?_)
    rwa [Nat.add_sub_cancel' hle]

end Assembled

section Linked

variable {s : Settings} {files : List Source.File} {ms : List Module} {ds : List Diagnostic}

theorem linked_byte (ha : assembleFiles s files = .ok ⟨ms, ds⟩) (he : errorCount ds = 0)
    (hs : ∀ m ∈ ms, m.Sized) {r : Reported (Option Program)} {p : Program} (hl : link s ms = .ok r)
    (hp : r.value = some p) {n : Name} {k : Nat} {b : UInt8} (hb : p.image.byte? n k = some b)
    (hz : b ≠ 0) : ∃ (i : Nat) (f : Source.File) (m : Module) (start : Nat),
      files[i]? = some f ∧ ms[i]? = some m ∧
      (Layout.ofModules s.link ms).partStart? n i = some start ∧ start ≤ k ∧
      k < start + m.offset n ∧ ((m.flagsOf n).nobits → InInstruction s f n (k - start)) := by
  obtain ⟨all, hall, heall, himg⟩ := link_eq_ok hl hp
  have halike := alike_linkModules hall
  rw [byte?_eq_contentsOf] at hb
  -- A byte that is not zero can only be in a section that some module has.
  have hn : n ∈ Layout.sectionNames ms := by
    by_contra hn
    rw [contentsOf, Layout.section?_image himg hn] at hb
    cases hb
  rw [Layout.contents_image himg halike hn] at hb
  obtain hzero | ⟨i, start, m', hm', hstart, hle, hpart⟩ := Layout.getElem?_partBytes hb
  · exact absurd hzero hz
  · rw [Nat.zero_add] at hle hpart
    rw [Layout.contributions_congr halike] at hstart
    obtain ⟨out, hmem, rfl, hout⟩ := Layout.section?_ofModules s.link hn
    have hi : i < ms.length := by
      rw [halike.length_eq]
      exact (List.getElem?_eq_some_iff.mp hm').1
    have hm : ms[i]? = some ms[i] := List.getElem?_eq_getElem hi
    obtain ⟨res, hres, -, hval⟩ := linkModules_eq_ok hall heall hm
    cases Option.some.inj (hm'.symm.trans hval)
    obtain ⟨f, a, hf, hfile, hea, hma⟩ := assembled_module ha he hm
    have hsized := hs _ (List.getElem_mem hi)
    have hu := untouched_linkReferences hres
    rw [← byte?_eq_contentsOf] at hpart
    have hlt := lt_offset_of_byte? hpart
    rw [hu.offset] at hlt
    refine ⟨i, f, ms[i], start, hf, hm, ?_, hle, by omega, fun hnobits => ?_⟩
    · rw [Layout.partStart?, hout, Option.bind_some, Layout.offsets_ofModules hmem]
      exact hstart
    · rw [hma] at hsized hnobits hu
      exact inInstruction_of_untouched hfile hea hsized hnobits hu hpart hz

/-- What is not zero in uninitialised sections. Nothing but a machine instruction is ever stored in
one, so such a section is all zero exactly if no instruction of the file was put there or all of them
are encoded as zero. -/
theorem uninitialised_bytes (ha : assembleFiles s files = .ok ⟨ms, ds⟩) (he : errorCount ds = 0)
    (hs : ∀ m ∈ ms, m.Sized) :
    (∀ (i : Nat) f (m : Module) n, files[i]? = some f → ms[i]? = some m → (m.flagsOf n).nobits →
      (∀ k b, m.byte? n k = some b → b ≠ 0 → InInstruction s f n k) ∧
      ((∀ k b, m.byte? n k = some b → b = 0) ↔ ∀ loc step w, Contains s f loc step →
        loc.sectionName = n → EncodedAs (loc, step) w → w.value = 0)) ∧
    ∀ r p, link s ms = .ok r → r.value = some p → ∀ n k b, p.image.byte? n k = some b → b ≠ 0 →
      ∃ (i : Nat) (f : Source.File) (m : Module) (start : Nat), files[i]? = some f ∧
        ms[i]? = some m ∧ (Layout.ofModules s.link ms).partStart? n i = some start ∧ start ≤ k ∧
        k < start + m.offset n ∧ ((m.flagsOf n).nobits → InInstruction s f n (k - start)) := by
  constructor
  · intro i f m n hf hm hn
    obtain ⟨g, a, hg, hfile, hea, rfl⟩ := assembled_module ha he hm
    cases Option.some.inj (hf.symm.trans hg)
    have hsized := hs _ (List.mem_of_getElem? hm)
    constructor
    · intro k b hb hz
      exact inInstruction_of_byte? hfile hea hsized hn hb hz
    · exact zero_iff_instructions hfile hea hsized hn
  · intro r p hl hp n k b hb hz
    exact linked_byte ha he hs hl hp hb hz

end Linked

def bssInstruction : Source.File := ⟨"a.s", [".bss", "addi $s0, $t0, 100"]⟩

theorem uninitialised_bssInstruction : ∃ ms p m, Linked {} [bssInstruction] ms p ∧
    ms[0]? = some m ∧ (m.flagsOf ".bss").nobits ∧ m.byte? ".bss" 0 = some 0x21 ∧
    InInstruction {} bssInstruction ".bss" 0 ∧ p.image.byte? ".bss" 0 = some 0x21 ∧
    ∃ (i : Nat) (f : Source.File) (start : Nat), [bssInstruction][i]? = some f ∧
      (Layout.ofModules {} ms).partStart? ".bss" i = some start ∧ start ≤ 0 := by
  have hbuild : (build {} [bssInstruction]).any fun x =>
      x.1.all isSized && x.2.image.byte? ".bss" 0 == some 0x21 && x.1[0]?.any fun m =>
        (m.flagsOf ".bss").nobits && m.byte? ".bss" 0 == some 0x21 := by
    decide +kernel
  obtain ⟨⟨ms, p⟩, hb, hx⟩ := (Option.any_eq_true _ _).mp hbuild
  simp only [Bool.and_eq_true, beq_iff_eq] at hx
  obtain ⟨⟨hsized, himage⟩, hx⟩ := hx
  obtain ⟨m, hm, hx⟩ := (Option.any_eq_true _ _).mp hx
  simp only [Bool.and_eq_true, beq_iff_eq] at hx
  obtain ⟨hnobits, hbyte⟩ := hx
  have hlinked := linked_of_build hb hsized
  obtain ⟨ds, ha, he⟩ := hlinked.assembled
  obtain ⟨ds', hl⟩ := hlinked.linked
  obtain ⟨hmodules, himages⟩ := uninitialised_bytes ha he hlinked.sized
  have hstored := (hmodules 0 bssInstruction m ".bss" rfl hm hnobits).1 0 0x21 hbyte (by decide)
  obtain ⟨i, f, m', start, hf, -, hstart, hle, -⟩ :=
    himages _ p hl rfl ".bss" 0 0x21 himage (by decide)
  exact ⟨ms, p, m, hlinked, hm, hnobits, hbyte, hstored, himage, i, f, start, hf, hstart, hle⟩

end MipsToolchain
