import MipsToolchain.Proofs.Object.Persistence
import MipsToolchain.Proofs.Object.Relocation

namespace MipsToolchain.Module

/-- The modules that come about by the operations on modules. -/
inductive Built : Module → Prop
  | new (name : String) (order : ByteOrder) : Built { name, order }
  | addSection {m m' : Module} {s : Section} (n : Name) (flags : SectionFlags) : Built m →
      m.perform (addSection n flags) = .ok (s, m') → Built m'
  | append {m m' : Module} {k : Nat} (n : Name) (bytes : ByteArray) : Built m →
      m.perform (append n bytes) = .ok (k, m') → Built m'
  | appendWord {m m' : Module} {k : Nat} (n : Name) (w : UInt32) : Built m →
      m.perform (appendWord n w) = .ok (k, m') → Built m'
  | reserve {m m' : Module} {k : Nat} (n : Name) (count : Int) : Built m →
      m.perform (reserve n count) = .ok (k, m') → Built m'
  | align {m m' : Module} (n : Name) (boundary : Nat) : Built m →
      m.perform (align n boundary) = .ok ((), m') → Built m'
  | tryDefine {m m' : Module} {fresh : Bool} (n : Name) (type : SymbolType)
      (address : Option Address) (origin : Source.Location) : Built m →
      m.perform (tryDefine n type address origin) = .ok (fresh, m') → Built m'
  | define {m m' : Module} {defined : Bool} (n : Name) (type : SymbolType) (address : Address)
      (origin : Source.Location) : Built m →
      m.perform (define n type address origin) = .ok (defined, m') → Built m'
  | declare {m m' : Module} {declared : Bool} (n : Name) (binding : Binding) : Built m →
      m.perform (declare n binding) = .ok (declared, m') → Built m'
  | track {m m' : Module} (r : Reference) : Built m →
      m.perform (track r) = .ok ((), m') → Built m'
  | writeWord {m m' : Module} (loc : Address) (w : UInt32) : Built m →
      (m.writeWord loc w).run = .ok (.ok m') → Built m'
  | relocate {m m' : Module} (r : Reference) (delta : Int64) : Built m →
      (m.relocate r delta).run = .ok (.ok m') → Built m'
  | place {m : Module} (n : Name) (address : UInt64) : Built m →
      Built (m.updateSection n ({ · with virtualAddress := address }))
  | markFailed {m : Module} : Built m → Built m.markFailed
  | finalize {m : Module} : Built m → Built m.finalize

def symbolNames (m : Module) : List Name := m.symbols.map Symbol.name

/-- What all operations keep: a name has one symbol, and references know what they are about. -/
structure WellFormed (m : Module) : Prop where
  distinct : m.symbolNames.Nodup
  known : ∀ r ∈ m.references, m.isSectionName r.symbol ∨ r.symbol ∈ m.symbolNames

section Symbols

variable {m : Module} {n : Name}

theorem symbol?_eq_none_iff : m.symbol? n = none ↔ n ∉ m.symbolNames := by
  simp [symbol?, symbolNames, List.find?_eq_none]

theorem symbol?_isSome_iff : (m.symbol? n).isSome ↔ n ∈ m.symbolNames := by
  rw [← not_iff_not, ← symbol?_eq_none_iff]
  simp

theorem find?_of_nodup {α : Type} (key : α → Name) {xs : List α} (h : (xs.map key).Nodup) {x : α}
    (hx : x ∈ xs) : xs.find? (key · = key x) = some x := by
  induction xs with
  | nil => cases hx
  | cons y ys ih =>
    obtain ⟨hfresh, hnodup⟩ := List.nodup_cons.mp h
    rw [List.find?_cons]
    rcases List.mem_cons.mp hx with rfl | hmem
    · simp
    · have hne : key y ≠ key x := fun heq => hfresh (heq ▸ List.mem_map_of_mem hmem)
      rw [decide_eq_false hne]
      exact ih hnodup hmem

theorem symbolNames_updateSymbol (f : Symbol → Symbol) (hf : ∀ s, (f s).name = s.name) :
    (m.updateSymbol n f).symbolNames = m.symbolNames :=
  map_key_update Symbol.name n f (fun s hs => (hf s).trans hs) m.symbols

end Symbols

namespace WellFormed

variable {m m' : Module}

theorem mono (h : m.WellFormed) (hs : m'.symbolNames = m.symbolNames)
    (hr : m'.references = m.references) (hn : ∀ n, m.isSectionName n → m'.isSectionName n) :
    m'.WellFormed := by
  refine ⟨hs ▸ h.distinct, fun r hmem => ?_⟩
  rw [hs]
  rw [hr] at hmem
  exact (h.known r hmem).imp_left (hn _)

theorem addSymbol (h : m.WellFormed) {s : Symbol} (hs : m.symbol? s.name = none) :
    ({ m with symbols := m.symbols ++ [s] } : Module).WellFormed := by
  have hnames : ({ m with symbols := m.symbols ++ [s] } : Module).symbolNames =
      m.symbolNames ++ [s.name] := List.map_append
  refine ⟨?_, fun r hr => ?_⟩
  · exact nodup_append_new h.distinct hs
  · rw [hnames]
    exact (h.known r hr).imp_right (List.mem_append_left _)

theorem updateSymbol (h : m.WellFormed) (n : Name) {f : Symbol → Symbol}
    (hf : ∀ s, (f s).name = s.name) : (m.updateSymbol n f).WellFormed :=
  h.mono (symbolNames_updateSymbol f hf) rfl fun _ hn => hn

theorem updateSection (h : m.WellFormed) (n : Name) {f : Section → Section}
    (hf : ∀ s, (f s).name = s.name) : (m.updateSection n f).WellFormed := by
  refine h.mono rfl rfl fun n' hn' => ?_
  rw [isSectionName, section?_updateSection m n n' f hf]
  unfold isSectionName at hn'
  split
  · next heq =>
    rw [Option.isSome_map, ← heq]
    exact hn'
  · exact hn'

theorem of_appends (h : m.WellFormed) {n : Name} {bs : List UInt8} (ha : Appends n bs m m') :
    m'.WellFormed :=
  h.mono (by simp only [symbolNames, ha.symbols]) ha.references ha.isSectionName

theorem of_tryDefine (h : m.WellFormed) {n : Name} {type : SymbolType} {address : Option Address}
    {origin : Source.Location} {fresh : Bool}
    (hd : m.perform (tryDefine n type address origin) = .ok (fresh, m')) : m'.WellFormed := by
  rcases tryDefine_eq_ok hd with rfl | ⟨hnone, rfl⟩
  · exact h
  · exact h.addSymbol hnone

theorem of_define (h : m.WellFormed) {n : Name} {type : SymbolType} {address : Address}
    {origin : Source.Location} {defined : Bool}
    (hd : m.perform (define n type address origin) = .ok (defined, m')) : m'.WellFormed := by
  rcases define_eq_ok hd with ⟨-, rfl⟩ | ⟨hnone, rfl⟩ | ⟨s, -, -, rfl⟩
  · exact h
  · exact h.addSymbol hnone
  · exact h.updateSymbol n fun _ => rfl

theorem of_declare (h : m.WellFormed) {n : Name} {binding : Binding} {declared : Bool}
    (hd : m.perform (declare n binding) = .ok (declared, m')) : m'.WellFormed := by
  rcases declare_eq_ok hd with ⟨-, rfl⟩ | ⟨hnone, rfl⟩ | ⟨-, rfl⟩
  · exact h
  · exact (h.addSymbol (s := .mention n) hnone).updateSymbol n fun _ => rfl
  · exact h.updateSymbol n fun _ => rfl

theorem of_track (h : m.WellFormed) {r : Reference} {u : Unit}
    (ht : m.perform (track r) = .ok (u, m')) : m'.WellFormed := by
  rcases track_eq_ok ht with ⟨hknown, rfl⟩ | ⟨hnone, -, rfl⟩
  · refine ⟨h.distinct, fun q hq => ?_⟩
    rcases List.mem_append.mp hq with hq | hq
    · exact h.known q hq
    · rw [List.mem_singleton.mp hq]
      exact hknown.imp_right symbol?_isSome_iff.mp
  · obtain ⟨hdistinct, hknown⟩ := h.addSymbol (s := .mention r.symbol) hnone
    refine ⟨hdistinct, fun q hq => ?_⟩
    rcases List.mem_append.mp hq with hq | hq
    · exact hknown q hq
    · rw [List.mem_singleton.mp hq]
      exact .inr (by simp [symbolNames, Symbol.mention])

end WellFormed

theorem Built.wellFormed {m : Module} (h : m.Built) : m.WellFormed := by
  induction h with
  | new => exact ⟨.nil, fun r hr => by cases hr⟩
  | addSection _ _ _ h ih => exact ih.of_appends (appends_addSection h).2
  | append _ _ _ h ih => exact ih.of_appends (appends_append h).2
  | appendWord _ _ _ h ih => exact ih.of_appends (appends_appendWord h).2
  | reserve _ _ _ h ih => exact ih.of_appends (appends_reserve h)
  | align _ _ _ h ih =>
    obtain ⟨⟨bs, ha⟩, -⟩ := appends_align h
    exact ih.of_appends ha
  | tryDefine _ _ _ _ _ h ih => exact ih.of_tryDefine h
  | define _ _ _ _ _ h ih => exact ih.of_define h
  | declare _ _ _ h ih => exact ih.of_declare h
  | track _ _ h ih => exact ih.of_track h
  | writeWord _ _ _ h ih =>
    obtain ⟨s, -, -, rfl⟩ := writeWord_eq_ok h
    exact ih.updateSection _ fun _ => rfl
  | relocate _ _ _ h ih =>
    obtain ⟨s, w, w', -, -, -, -, rfl⟩ := relocate_eq_ok h
    exact ih.updateSection _ fun _ => rfl
  | place n address _ ih => exact ih.updateSection n fun _ => rfl
  | markFailed _ ih => exact ⟨ih.distinct, ih.known⟩
  | finalize _ ih => exact ⟨ih.distinct, ih.known⟩

theorem Built.distinctSections {m : Module} (h : m.Built) : m.DistinctSections := by
  have hkeeps : ∀ {m m' : Module}, KeepsContents m m' → m.DistinctSections → m'.DistinctSections :=
    fun hk hd => by rwa [DistinctSections, hk.sections]
  induction h with
  | new => exact .nil
  | addSection _ _ _ h ih => exact (appends_addSection h).2.distinct ih
  | append _ _ _ h ih => exact (appends_append h).2.distinct ih
  | appendWord _ _ _ h ih => exact (appends_appendWord h).2.distinct ih
  | reserve _ _ _ h ih => exact (appends_reserve h).distinct ih
  | align _ _ _ h ih =>
    obtain ⟨⟨bs, ha⟩, -⟩ := appends_align h
    exact ha.distinct ih
  | tryDefine _ _ _ _ _ h ih => exact hkeeps (keepsContents_tryDefine h) ih
  | define _ _ _ _ _ h ih => exact hkeeps (keepsContents_define h) ih
  | declare _ _ _ h ih => exact hkeeps (keepsContents_declare h) ih
  | track _ _ h ih =>
    rw [DistinctSections, (perform_track h).1]
    exact ih
  | writeWord _ _ _ h ih =>
    obtain ⟨s, -, -, rfl⟩ := writeWord_eq_ok h
    exact ih.updateSection _ fun _ => rfl
  | relocate _ _ _ h ih =>
    obtain ⟨s, w, w', -, -, -, -, rfl⟩ := relocate_eq_ok h
    exact ih.updateSection _ fun _ => rfl
  | place n address _ ih => exact ih.updateSection n fun _ => rfl
  | markFailed _ ih => exact ih
  | finalize _ ih => exact ih

end MipsToolchain.Module
