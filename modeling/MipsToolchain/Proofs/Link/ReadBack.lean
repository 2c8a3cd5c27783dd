import MipsToolchain.Proofs.Link.Memory

namespace MipsToolchain

open Diagnostic MipsToolchain.Module

namespace ByteOrder

/-- A word that is written in one order and read in another comes back if its bytes are the same
from both ends. -/
theorem ofBytes_wordBytes_eq_iff (o o' : ByteOrder) (w : UInt32) :
    o.ofBytes (o'.wordBytes w) = w ↔
      o = o' ∨ (o'.wordBytes w).reverse = o'.wordBytes w := by
  have hsame : o.ofBytes (o'.wordBytes w) = w ↔ o'.wordBytes w = o.wordBytes w := by
    constructor
    · intro h
      have hlen := length_wordBytes o' w
      match hbs : o'.wordBytes w, hlen with
      | [a, b, c, d], _ =>
        rw [hbs] at h
        rw [← h, wordBytes_ofBytes]
    · intro h
      rw [h, ofBytes_wordBytes]
  rw [hsame]
  cases o <;> cases o' <;> simp [wordBytes, arrange, eq_comm]

end ByteOrder

theorem Module.exists_wordIn? {m : Module} (o : ByteOrder) {n : Name} {k : Nat}
    (h : k + 4 ≤ m.offset n) : ∃ w, m.wordIn? o n k = some w := by
  obtain ⟨t, ht⟩ := Option.isSome_iff_exists.mp
    (section?_of_lt_offset (show k < m.offset n by omega))
  rw [offset_of_section? ht] at h
  obtain ⟨bs, hbs⟩ := wordBytes?_eq_some_of_le h
  exact ⟨_, wordIn?_eq_of_wordBytes? ht hbs⟩

theorem Module.wordIn?_reordered {m : Module} {o : ByteOrder} (o' : ByteOrder) {n : Name} {k : Nat}
    {w : UInt32} (h : m.wordIn? o n k = some w) :
    m.wordIn? o' n k = some (o'.ofBytes (o.wordBytes w)) :=
  wordIn?_eq_of_bytes (ByteOrder.length_wordBytes o w) (byte?_of_wordIn? h)

section Link

variable {s : Settings} {ms : List Module} {p : Program}

/-- The words of a program. It has the bytes of every module as they are and reads them in the order
of the settings, so that a word is read back if the module has that order too, or if the bytes of
the word are the same from both ends. -/
theorem program_reads_words_back (hp : (link s ms).Gives (some p)) (hs : p.image.Sized) :
    p.image.order = s.order ∧
    ∃ out, linkModules (Layout.ofModules s.link ms) p.globals 0 ms = .ok out ∧
      ∀ (i : Nat) (m : Module), ms[i]? = some m → ∃ m', out.value[i]? = some m' ∧
        m'.order = m.order ∧ ∀ n k, k + 4 ≤ m.offset n → ∃ start w,
          (Layout.ofModules s.link ms).partStart? n i = some start ∧
          (m'.readWord (Address.inSection n k)).run = .ok (.ok w) ∧
          (p.image.readWord (Address.inSection n (start + k))).run =
            .ok (.ok (s.order.ofBytes (m.order.wordBytes w))) ∧
          (s.order.ofBytes (m.order.wordBytes w) = w ↔
            s.order = m.order ∨ (m.order.wordBytes w).reverse = m.order.wordBytes w) := by
  obtain ⟨ds, hp⟩ := hp
  obtain ⟨out, hout, he, himg⟩ := link_eq_ok hp rfl
  have hdistinct := (Layout.arranges_ofModules s.link ms).distinct
  have horder := (Layout.image_spec himg hdistinct).1
  have hshows := Layout.shows_image himg (alike_linkModules hout)
  refine ⟨horder, out, hout, fun i m hm => ?_⟩
  obtain ⟨res, hres, -, hval⟩ := linkModules_eq_ok hout he hm
  have hu := untouched_linkReferences hres
  refine ⟨res.value, hval, hu.order, fun n k hk => ?_⟩
  obtain ⟨t, ht⟩ := Option.isSome_iff_exists.mp
    (section?_of_lt_offset (show k < m.offset n by omega))
  obtain ⟨o, hmem, rfl, hsec⟩ := Layout.section?_ofModules s.link
    (Layout.mem_sectionNames (List.mem_of_getElem? hm) ht)
  obtain ⟨start, hstart, -⟩ := (Layout.arranges_ofModules s.link ms).starts o hmem i m hm
  have hk' : k + 4 ≤ res.value.offset o.name := by rwa [hu.offset]
  obtain ⟨w, hw⟩ := exists_wordIn? m.order hk'
  -- The bytes are copied one by one, and only then read in the order of the program.
  have hcopy : p.image.wordIn? s.order o.name (start + k) =
      some (s.order.ofBytes (m.order.wordBytes w)) := by
    rw [← wordIn?_reordered s.order hw]
    refine wordIn?_congr fun j hj => ?_
    rw [Nat.add_assoc]
    exact hshows.parts o hmem i res.value start (k + j) hval hstart (by omega)
  have hinside : start + m.offset o.name ≤ o.size :=
    (Layout.arranges_ofModules s.link ms).inside hmem hm hstart
  have hsized : res.value.offset o.name < 0x8000000000000000 := by
    have hlt := hs o.name
    rw [hshows.sizes o hmem] at hlt
    rw [hu.offset]
    omega
  refine ⟨start, w, by rw [Layout.partStart?, hsec, Option.bind_some, hstart],
    readWord_of_wordIn? (hu.order ▸ hw) hsized, readWord_of_wordIn? (horder ▸ hcopy) (hs _),
    ByteOrder.ofBytes_wordBytes_eq_iff _ _ _⟩

end Link

def programOf (s : Settings) (ms : List Module) : Option Program :=
  match link s ms with
  | .error _ => none
  | .ok r => r.value

theorem gives_of_programOf {s : Settings} {ms : List Module} {p : Program}
    (h : programOf s ms = some p) : (link s ms).Gives (some p) := by
  unfold programOf at h
  split at h
  · cases h
  · next r hr => exact ⟨r.diagnostics, by rw [hr, ← h]⟩

def littleModule : Module where
  name := "a.o"
  order := .little
  sections := [⟨".text", StandardSection.text.flags, 0, 2, [0x64, 0, 0x10, 0x21].toByteArray⟩]
  symbols := [⟨"main", .label, .global, some (.relative ".text" 0), false, .none⟩]
  finalized := true

theorem program_reads_littleModule : ∃ p out m', (link {} [littleModule]).Gives (some p) ∧
    p.image.Sized ∧ linkModules (Layout.ofModules {} [littleModule]) p.globals 0 [littleModule] =
      .ok out ∧ out.value[0]? = some m' ∧
    (m'.readWord (Address.inSection ".text" 0)).run = .ok (.ok 0x21100064) ∧
    (p.image.readWord (Address.inSection ".text" 0)).run = .ok (.ok 0x64001021) := by
  have hlink : (programOf {} [littleModule]).any fun p => p.image.isSized &&
      (Layout.ofModules {} [littleModule]).partStart? ".text" 0 == some 0 &&
      (linkModules (Layout.ofModules {} [littleModule]) p.globals 0 [littleModule]).toOption.any
        fun out => out.value[0]?.any fun m => m.isSized && m.order == .little &&
          m.wordIn? .little ".text" 0 == some 0x21100064 := by
    decide +kernel
  obtain ⟨p, hp, hx⟩ := (Option.any_eq_true _ _).mp hlink
  simp only [Bool.and_eq_true, beq_iff_eq] at hx
  obtain ⟨⟨hsized, hstart⟩, hx⟩ := hx
  have hgives := gives_of_programOf hp
  obtain ⟨-, out, hout, hmodules⟩ := program_reads_words_back hgives (sized_of_isSized hsized)
  rw [except_toOption_eq_some.mpr hout, Option.any_some] at hx
  obtain ⟨m', hm', horder, hwords⟩ := hmodules 0 littleModule rfl
  obtain ⟨m, hm, hx⟩ := (Option.any_eq_true _ _).mp hx
  cases hm.symm.trans hm'
  simp only [Bool.and_eq_true, beq_iff_eq] at hx
  obtain ⟨⟨hsized', -⟩, hword⟩ := hx
  obtain ⟨start, w, hstart', hread, himage, -⟩ := hwords ".text" 0 (by decide)
  cases hstart.symm.trans hstart'
  have hown : m'.wordIn? m'.order ".text" 0 = some 0x21100064 := by
    rw [horder]
    exact hword
  have hcopy := readWord_of_wordIn? hown (sized_of_isSized hsized' ".text")
  cases hcopy.symm.trans hread
  exact ⟨p, out, m', hgives, sized_of_isSized hsized, hout, hm', hcopy, himage⟩

end MipsToolchain
