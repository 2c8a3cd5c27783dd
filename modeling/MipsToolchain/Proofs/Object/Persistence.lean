import MipsToolchain.Proofs.Object.Building

namespace MipsToolchain.Module

def Defines (m : Module) (n : Name) (type : SymbolType) (a : Address) : Prop :=
  ∃ s, m.symbol? n = some s ∧ s.type = type ∧ s.address = some a

def KeepsDefinitions (m m' : Module) : Prop :=
  ∀ n type a, m.Defines n type a → m'.Defines n type a

namespace KeepsDefinitions

variable {m m' m'' : Module}

theorem trans (h : KeepsDefinitions m m') (h' : KeepsDefinitions m' m'') : KeepsDefinitions m m'' :=
  fun n type a hd => h' n type a (h n type a hd)

theorem of_symbols (h : m'.symbols = m.symbols) : KeepsDefinitions m m' := by
  rintro n type a ⟨s, hs, hd⟩
  exact ⟨s, by rwa [symbol?, h], hd⟩

end KeepsDefinitions

section Symbols

variable {m : Module} {n : Name}

theorem symbol?_updateSymbol (f : Symbol → Symbol) (hf : ∀ s, (f s).name = s.name) (n' : Name) :
    (m.updateSymbol n f).symbol? n' = if n' = n then (m.symbol? n).map f else m.symbol? n' :=
  find?_map_update Symbol.name n n' f hf m.symbols

theorem symbol?_append_new {s : Symbol} (h : m.symbol? s.name = none) (n : Name) :
    ({ m with symbols := m.symbols ++ [s] } : Module).symbol? n =
      if n = s.name then some s else m.symbol? n :=
  find?_append_new h n

theorem keepsDefinitions_append (s : Symbol) :
    KeepsDefinitions m { m with symbols := m.symbols ++ [s] } := by
  rintro n type a ⟨t, ht, hd⟩
  refine ⟨t, ?_, hd⟩
  unfold symbol? at ht ⊢
  rw [List.find?_append, ht]
  rfl

theorem keepsDefinitions_update {f : Symbol → Symbol} (hf : ∀ s, (f s).name = s.name)
    (hd : ∀ s, m.symbol? n = some s → s.isDefined → (f s).type = s.type ∧ (f s).address = s.address) :
    KeepsDefinitions m (m.updateSymbol n f) := by
  rintro n' type a ⟨s, hs, htype, haddress⟩
  rw [Defines, symbol?_updateSymbol f hf]
  by_cases hn : n' = n
  · subst hn
    obtain ⟨ht, ha⟩ := hd s hs (by simp [Symbol.isDefined, haddress])
    exact ⟨f s, by simp [hs], ht.trans htype, ha.trans haddress⟩
  · exact ⟨s, by rw [if_neg hn, hs], htype, haddress⟩

end Symbols

theorem keepsDefinitions_define {m m' : Module} {n : Name} {type : SymbolType} {a : Address}
    {origin : Source.Location} {defined : Bool}
    (h : m.perform (define n type a origin) = .ok (defined, m')) :
    KeepsDefinitions m m' ∧ (defined = true → m'.Defines n type a) := by
  rcases define_eq_ok h with ⟨⟨rfl, -⟩, rfl⟩ | ⟨hnone, rfl⟩ | ⟨s, hs, hundefined, rfl⟩
  · exact ⟨.of_symbols rfl, nofun⟩
  · let symbol : Symbol := ⟨n, type, .internal, some a, false, origin⟩
    refine ⟨keepsDefinitions_append symbol, fun _ => ⟨symbol, ?_, rfl, rfl⟩⟩
    exact (symbol?_append_new (s := symbol) hnone n).trans (if_pos rfl)
  · refine ⟨keepsDefinitions_update (fun _ => rfl) fun t ht hd => ?_,
      fun _ => ⟨{ s with type := type, address := some a, origin := origin }, ?_, rfl, rfl⟩⟩
    · rw [hs] at ht
      cases ht
      cases hundefined.symm.trans hd
    · rw [symbol?_updateSymbol, if_pos rfl, hs]
      · rfl
      · exact fun _ => rfl

theorem keepsDefinitions_declare {m m' : Module} {n : Name} {binding : Binding} {declared : Bool}
    (h : m.perform (declare n binding) = .ok (declared, m')) : KeepsDefinitions m m' := by
  rcases declare_eq_ok h with ⟨-, rfl⟩ | ⟨-, rfl⟩ | ⟨-, rfl⟩
  · exact .of_symbols rfl
  · exact (keepsDefinitions_append _).trans (keepsDefinitions_update (fun _ => rfl)
      fun _ _ _ => ⟨rfl, rfl⟩)
  · exact keepsDefinitions_update (fun _ => rfl) fun _ _ _ => ⟨rfl, rfl⟩

theorem keepsDefinitions_track {m m' : Module} {r : Reference} {u : Unit}
    (h : m.perform (track r) = .ok (u, m')) : KeepsDefinitions m m' := by
  rcases track_eq_ok h with ⟨-, rfl⟩ | ⟨-, -, rfl⟩
  · exact .of_symbols rfl
  · have hkeeps : KeepsDefinitions m { m with symbols := m.symbols ++ [.mention r.symbol] } :=
      keepsDefinitions_append _
    exact hkeeps.trans (.of_symbols rfl)

/-- The flags of a section, which before the section exists are those that it would get by itself. -/
def flagsOf (m : Module) (n : Name) : SectionFlags :=
  ((m.section? n).map Section.flags).getD (standardFlags n)

theorem flagsOf_congr {m m' : Module} (h : m'.sections = m.sections) (n : Name) :
    m'.flagsOf n = m.flagsOf n := by
  simp only [flagsOf, section?, h]

variable {m m' : Module} {n : Name}

theorem flagsOf_updateSection {f : Section → Section} (hn : ∀ s, (f s).name = s.name)
    (hf : ∀ s, (f s).flags = s.flags) (k : Name) :
    (m.updateSection n f).flagsOf k = m.flagsOf k := by
  unfold flagsOf
  rw [section?_updateSection m n k f hn]
  split
  · next hk =>
    subst hk
    cases m.section? k with
    | none => rfl
    | some s => simp [hf]
  · rfl

theorem flagsOf_addSection {flags : SectionFlags} {s : Section}
    (h : m.perform (addSection n flags) = .ok (s, m')) (k : Name) :
    m'.flagsOf k = if m.section? n = none ∧ k = n then flags else m.flagsOf k := by
  rcases addSection_eq_ok h with ⟨hs, rfl⟩ | ⟨hs, rfl, rfl⟩
  · simp [hs]
  · have hnew := section?_append_new (s := ⟨n, flags, 0, 0, .empty⟩) hs k
    unfold flagsOf
    rw [hnew]
    by_cases hk : k = n <;> simp [hk, hs]

theorem flagsOf_addSection_standard {s : Section}
    (h : m.perform (addSection n (standardFlags n)) = .ok (s, m')) (k : Name) :
    m'.flagsOf k = m.flagsOf k := by
  rw [flagsOf_addSection h]
  split
  · next hk =>
    obtain ⟨hnone, rfl⟩ := hk
    simp [flagsOf, hnone]
  · rfl

theorem flagsOf_append {bytes : ByteArray} {o : Nat}
    (h : m.perform (append n bytes) = .ok (o, m')) (k : Name) : m'.flagsOf k = m.flagsOf k := by
  obtain ⟨s, m₁, hadd, -, rfl⟩ := append_eq_ok h
  exact (flagsOf_updateSection (f := (·.append bytes)) (fun _ => rfl) (fun _ => rfl) k).trans
    (flagsOf_addSection_standard hadd k)

theorem flagsOf_appendWord {w : UInt32} {o : Nat}
    (h : m.perform (appendWord n w) = .ok (o, m')) (k : Name) : m'.flagsOf k = m.flagsOf k := by
  rw [appendWord, perform_bind, perform_get] at h
  exact flagsOf_append h k

theorem flagsOf_reserve {count : Int} {o : Nat}
    (h : m.perform (reserve n count) = .ok (o, m')) (k : Name) : m'.flagsOf k = m.flagsOf k :=
  flagsOf_append (reserve_eq_ok h) k

theorem flagsOf_align {boundary : Nat} {u : Unit}
    (h : m.perform (align n boundary) = .ok (u, m')) (k : Name) : m'.flagsOf k = m.flagsOf k := by
  obtain ⟨-, s, m₁, m₂, hadd, rfl, hfill⟩ := align_eq_ok h
  let raise : Section → Section := fun s => { s with alignment := max s.alignment boundary }
  have haligned : (m₁.updateSection n raise).flagsOf k = m.flagsOf k :=
    (flagsOf_updateSection (f := raise) (fun _ => rfl) (fun _ => rfl) k).trans
      (flagsOf_addSection_standard hadd k)
  rcases hfill with ⟨-, rfl⟩ | ⟨o, -, hr⟩
  · exact haligned
  · exact (flagsOf_reserve hr k).trans haligned

end MipsToolchain.Module
