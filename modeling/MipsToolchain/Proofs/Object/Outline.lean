import MipsToolchain.Link.Layout
import MipsToolchain.Proofs.Object.Persistence
import Mathlib.Logic.Function.Basic

namespace MipsToolchain

theorem alignUp_unique {k l boundary : Nat} (hk : k ≤ l) (hl : l < k + blockSize boundary)
    (hd : blockSize boundary ∣ l) : l = alignUp k boundary := by
  have hle := le_alignUp k boundary
  have hlt := alignUp_lt k boundary
  have hdvd := dvd_alignUp k boundary
  have hup := Nat.eq_zero_of_dvd_of_lt (Nat.dvd_sub hd hdvd) (by omega)
  have hdown := Nat.eq_zero_of_dvd_of_lt (Nat.dvd_sub hdvd hd) (by omega)
  omega

/-- What the layout of further lines depends on: which sections there are, how long they are and
what they may hold, and who can see a symbol and how it is defined. A symbol that is only mentioned
looks like none at all. -/
@[ext]
structure Outline where
  order : ByteOrder
  present : Name → Bool
  length : Name → Nat
  flags : Name → SectionFlags
  binding : Name → Binding
  definition? : Name → Option (SymbolType × Address)

namespace Outline

def create (o : Outline) (n : Name) (flags : SectionFlags) : Outline :=
  { o with
    present := Function.update o.present n true
    flags := if o.present n then o.flags else Function.update o.flags n flags }

def grow (o : Outline) (n : Name) (k : Nat) : Outline :=
  { o with
    present := Function.update o.present n true
    length := Function.update o.length n (o.length n + k) }

def define (o : Outline) (n : Name) (type : SymbolType) (a : Address) : Outline :=
  if (o.definition? n).isSome then o
  else { o with definition? := Function.update o.definition? n (some (type, a)) }

def declare (o : Outline) (n : Name) (b : Binding) : Outline :=
  { o with binding := Function.update o.binding n b }

theorem grow_grow (o : Outline) (n : Name) (j k : Nat) :
    (o.grow n j).grow n k = o.grow n (j + k) := by
  simp [grow, Nat.add_assoc]

end Outline

namespace Module

def bindingOf (m : Module) (n : Name) : Binding := ((m.symbol? n).map (·.binding)).getD .internal

def definition? (m : Module) (n : Name) : Option (SymbolType × Address) :=
  (m.symbol? n).bind fun s => s.address.map (s.type, ·)

def outline (m : Module) : Outline where
  order := m.order
  present n := (m.section? n).isSome
  length := m.offset
  flags := m.flagsOf
  binding := m.bindingOf
  definition? := m.definition?

/-- A module with standard sections only, whose names are not those of symbols. -/
structure Plain (m : Module) : Prop where
  sections : ∀ n, (m.section? n).isSome → n ∈ StandardSection.names
  symbols : ∀ n ∈ StandardSection.names, m.symbol? n = none

variable {m m' : Module} {n : Name}

theorem definition?_eq_some {type : SymbolType} {a : Address} :
    m.definition? n = some (type, a) ↔ m.Defines n type a := by
  simp [definition?, Defines, Option.bind_eq_some_iff, and_comm]

theorem map_length_of_outline (h : m.outline = m'.outline) (n : Name) :
    (m.section? n).map Section.length = (m'.section? n).map Section.length := by
  have hlength : ∀ m : Module, (m.section? n).map Section.length =
      if m.outline.present n then some (m.outline.length n) else none := by
    intro m
    cases hs : m.section? n <;> simp [outline, offset, hs]
  rw [hlength, hlength, h]

theorem Plain.of_appends (hm : m.Plain) (hn : n ∈ StandardSection.names) {bs : List UInt8}
    (h : Appends n bs m m') : m'.Plain where
  sections k hk := by
    by_cases hkn : k = n
    · exact hkn ▸ hn
    · exact hm.sections k (h.others k hkn ▸ hk)
  symbols k hk := by
    rw [symbol?, h.symbols]
    exact hm.symbols k hk

theorem outline_of_appends {bs : List UInt8} (h : Appends n bs m m')
    (hf : ∀ k, m'.flagsOf k = m.flagsOf k) : m'.outline = m.outline.grow n bs.length := by
  ext1
  · exact h.order
  · funext k
    by_cases hk : k = n
    · subst hk
      simp [outline, Outline.grow, h.present]
    · simp [outline, Outline.grow, hk, h.others k hk]
  · funext k
    by_cases hk : k = n
    · subst hk
      simp [outline, Outline.grow, h.offset]
    · simp [outline, Outline.grow, hk, offset, h.others k hk]
  · exact funext hf
  · funext k
    simp only [outline, Outline.grow, bindingOf, symbol?, h.symbols]
  · funext k
    simp only [outline, Outline.grow, definition?, symbol?, h.symbols]

theorem Plain.update (hm : m.Plain) (hn : n ∉ StandardSection.names) {b : Binding}
    {d : Option (SymbolType × Address)} (hs : m'.sections = m.sections) (ho : m'.order = m.order)
    (hk : ∀ k, k ≠ n → m'.symbol? k = m.symbol? k) (hb : m'.bindingOf n = b)
    (hd : m'.definition? n = d) : m'.Plain ∧ m'.outline = { m.outline with
      binding := Function.update m.bindingOf n b
      definition? := Function.update m.definition? n d } := by
  refine ⟨⟨fun k h => hm.sections k (by rwa [section?, ← hs]), fun k h => ?_⟩, ?_⟩
  · rw [hk k fun heq => hn (heq ▸ h)]
    exact hm.symbols k h
  · ext1
    · exact ho
    · funext k
      simp only [outline, section?, hs]
    · funext k
      simp only [outline, offset, section?, hs]
    · exact funext fun k => flagsOf_congr hs k
    · refine (Function.update_eq_iff.mpr ⟨hb.symm, fun k hkn => ?_⟩).symm
      simp only [bindingOf, outline, hk k hkn]
    · refine (Function.update_eq_iff.mpr ⟨hd.symm, fun k hkn => ?_⟩).symm
      simp only [definition?, outline, hk k hkn]

/-- A step that leaves a plain module plain, and does to its outline what a function says. -/
def Acts {α : Type} (e : Edit α) (f : Outline → Outline) : Prop :=
  ∀ (m : Module) (a : α) (m' : Module), m.Plain → m.perform e = .ok (a, m') →
    m'.Plain ∧ m'.outline = f m.outline

section Sections

variable (hn : n ∈ StandardSection.names)

include hn

theorem acts_append (bytes : ByteArray) : Acts (append n bytes) (·.grow n bytes.size) := by
  intro m k m' hm h
  have happ := (appends_append h).2
  exact ⟨hm.of_appends hn happ, outline_of_appends happ fun k => flagsOf_append h k⟩

theorem acts_appendWord (w : UInt32) : Acts (appendWord n w) (·.grow n 4) := by
  intro m k m' hm h
  have happ := (appends_appendWord h).2
  have hlen : (m.order.wordBytes w).length = 4 := ByteOrder.length_wordBytes _ _
  exact ⟨hm.of_appends hn happ, hlen ▸ outline_of_appends happ fun k => flagsOf_appendWord h k⟩

theorem acts_reserve (count : Int) : Acts (reserve n count) (·.grow n count.toNat) := by
  intro m k m' hm h
  have happ := appends_reserve h
  refine ⟨hm.of_appends hn happ, (outline_of_appends happ fun k => flagsOf_reserve h k).trans ?_⟩
  rw [List.length_replicate]

theorem acts_align (boundary : Nat) : Acts (align n boundary) fun o =>
    o.grow n (alignUp (o.length n) boundary - o.length n) := by
  intro m u m' hm h
  obtain ⟨⟨k, happ⟩, hdvd, hlt⟩ := appends_align h
  refine ⟨hm.of_appends hn happ, (outline_of_appends happ fun k => flagsOf_align h k).trans ?_⟩
  have hend := happ.offset
  rw [List.length_replicate] at hend ⊢
  have halign := alignUp_unique (by omega) hlt hdvd
  have hk : k = alignUp (m.offset n) boundary - m.offset n := by omega
  exact congrArg (m.outline.grow n) hk

theorem acts_addSection (flags : SectionFlags) : Acts (addSection n flags) (·.create n flags) := by
  intro m s m' hm h
  have happ := (appends_addSection h).2
  refine ⟨hm.of_appends hn happ, ?_⟩
  ext1
  · exact happ.order
  · funext k
    by_cases hk : k = n
    · subst hk
      simp [outline, Outline.create, happ.present]
    · simp [outline, Outline.create, hk, happ.others k hk]
  · funext k
    by_cases hk : k = n
    · subst hk
      simpa [outline, Outline.create] using happ.offset
    · simp [outline, Outline.create, offset, happ.others k hk]
  · funext k
    refine (flagsOf_addSection h k).trans ?_
    by_cases hs : m.section? n = none
    · by_cases hk : k = n <;> simp [outline, Outline.create, Function.update, hs, hk]
    · have hp : (m.section? n).isSome := Option.isSome_iff_ne_none.mpr hs
      simp [outline, Outline.create, hs, hp]
  · funext k
    simp only [outline, Outline.create, bindingOf, symbol?, happ.symbols]
  · funext k
    simp only [outline, Outline.create, definition?, symbol?, happ.symbols]

end Sections

theorem acts_track (r : Reference) : Acts (track r) id := by
  intro m u m' hm h
  rcases track_eq_ok h with ⟨-, rfl⟩ | ⟨hnone, hsection, heq⟩
  · exact ⟨⟨hm.sections, hm.symbols⟩, rfl⟩
  · have hsymbol : ∀ k, m'.symbol? k =
        if k = r.symbol then some (.mention r.symbol) else m.symbol? k := by
      rw [heq]
      exact symbol?_append_new (s := .mention r.symbol) hnone
    have hn : r.symbol ∉ StandardSection.names := fun hn => by
      simp [isSectionName, hn] at hsection
    refine (hm.update hn (by rw [heq]) (by rw [heq]) (fun k hk => (hsymbol k).trans (if_neg hk))
      (b := m.bindingOf r.symbol) (d := m.definition? r.symbol) ?_ ?_).imp_right fun h => h.trans ?_
    · simp [bindingOf, hsymbol, hnone, Symbol.mention]
    · simp [definition?, hsymbol, hnone, Symbol.mention]
    · rw [Function.update_eq_self, Function.update_eq_self]
      rfl

section Symbols

variable (hn : n ∉ StandardSection.names)

include hn

/-- A symbol that was mentioned before is defined like a new one. -/
theorem acts_define (type : SymbolType) (a : Address) (origin : Source.Location) :
    Acts (define n type a origin) (·.define n type a) := by
  intro m b m' hm h
  have hupdate : m'.sections = m.sections → m'.order = m.order →
      (∀ k, k ≠ n → m'.symbol? k = m.symbol? k) → m.definition? n = none →
      m'.bindingOf n = m.bindingOf n → m'.definition? n = some (type, a) →
      m'.Plain ∧ m'.outline = m.outline.define n type a := by
    intro hs ho hk hnone hb hd
    refine (hm.update hn hs ho hk hb hd).imp_right fun h => h.trans ?_
    rw [Function.update_eq_self, Outline.define, if_neg]
    · rfl
    · exact fun hsome => by simp [outline, hnone] at hsome
  rcases define_eq_ok h with ⟨⟨-, s, hs, hdefined⟩, rfl⟩ | ⟨hnone, rfl⟩ | ⟨s, hs, hundefined, rfl⟩
  · refine ⟨hm, (if_pos ?_).symm⟩
    simpa [outline, definition?, hs, Symbol.isDefined] using hdefined
  · have hsymbol := symbol?_append_new (m := m)
      (s := ⟨n, type, .internal, some a, false, origin⟩) hnone
    refine hupdate rfl rfl (fun k hk => (hsymbol k).trans (if_neg hk)) ?_ ?_ ?_
    · simp [definition?, hnone]
    · simp [bindingOf, hsymbol, hnone]
    · simp [definition?, hsymbol]
  · have hsymbol := symbol?_updateSymbol (m := m) (n := n)
      (fun s => { s with type := type, address := some a, origin := origin }) fun _ => rfl
    refine hupdate rfl rfl (fun k hk => (hsymbol k).trans (if_neg hk)) ?_ ?_ ?_
    · simpa [definition?, hs, Symbol.isDefined] using hundefined
    · simp [bindingOf, hsymbol, hs]
    · simp [definition?, hsymbol, hs]

theorem acts_declare {binding : Binding} (hb : binding ≠ .internal) :
    Acts (declare n binding) (·.declare n binding) := by
  intro m b m' hm h
  have hupdate : m'.sections = m.sections → m'.order = m.order →
      (∀ k, k ≠ n → m'.symbol? k = m.symbol? k) → m'.bindingOf n = binding →
      m'.definition? n = m.definition? n → m'.Plain ∧ m'.outline = m.outline.declare n binding := by
    intro hs ho hk hb hd
    refine (hm.update hn hs ho hk hb hd).imp_right fun h => h.trans ?_
    rw [Function.update_eq_self]
    rfl
  rcases declare_eq_ok h with ⟨⟨-, hinternal⟩, -⟩ | ⟨hnone, rfl⟩ | ⟨hsome, rfl⟩
  · exact absurd hinternal hb
  · have hadd := symbol?_append_new (m := m) (s := .mention n) hnone
    have hsymbol := symbol?_updateSymbol (m := { m with symbols := m.symbols ++ [.mention n] })
      (n := n) ({ · with binding := binding }) fun _ => rfl
    have hnew := (hsymbol n).trans (if_pos rfl)
    rw [(hadd n).trans (if_pos rfl)] at hnew
    refine hupdate rfl rfl (fun k hk => ?_) ?_ ?_
    · exact ((hsymbol k).trans (if_neg hk)).trans ((hadd k).trans (if_neg hk))
    · rw [bindingOf, hnew]
      rfl
    · rw [definition?, hnew, definition?, hnone]
      rfl
  · have hsymbol := symbol?_updateSymbol (m := m) (n := n) ({ · with binding := binding })
      fun _ => rfl
    obtain ⟨s, hs⟩ := Option.isSome_iff_exists.mp hsome
    refine hupdate rfl rfl (fun k hk => (hsymbol k).trans (if_neg hk)) ?_ ?_
    · simp [bindingOf, hsymbol, hs]
    · simp [definition?, hsymbol, hs]

end Symbols

end Module

end MipsToolchain
