import MipsToolchain.Proofs.Object.Operations

namespace MipsToolchain.Module

variable {m : Module} {n : Name}

theorem perform_checkMutable_of_open (h : m.finalized = false) :
    m.perform checkMutable = .ok ((), m) := by
  rw [perform_checkMutable, h]
  rfl

theorem perform_mutable_of_finalized {α : Type} (h : m.finalized) (f : Unit → Edit α) :
    m.perform (checkMutable >>= f) = .error (.finalizedModule m.name) := by
  rw [perform_bind, perform_checkMutable, if_pos h]
  rfl

theorem perform_ok {α : Type} (m : Module) (a : α) : m.perform (pure a : Edit α) = .ok (a, m) := rfl

def addNew (m : Module) (s : Section) : Module := { m with sections := m.sections ++ [s] }

theorem perform_addSection_of_some {s : Section} (hs : m.section? n = some s)
    (flags : SectionFlags) : m.perform (addSection n flags) = .ok (s, m) := by
  rw [addSection, perform_bind, perform_get, Except.bind]
  dsimp only
  rw [hs]
  rfl

theorem perform_addSection_of_none (hm : m.finalized = false) (hs : m.section? n = none)
    (flags : SectionFlags) : m.perform (addSection n flags) =
      .ok (⟨n, flags, 0, 0, .empty⟩, m.addNew ⟨n, flags, 0, 0, .empty⟩) := by
  rw [addSection, perform_bind, perform_get, Except.bind]
  dsimp only
  rw [hs, perform_bind, perform_checkMutable_of_open hm]
  rfl

theorem exists_addSection (hm : m.finalized = false) (n : Name) (flags : SectionFlags) :
    ∃ x, m.perform (addSection n flags) = .ok x := by
  cases hs : m.section? n with
  | some s => exact ⟨_, perform_addSection_of_some hs flags⟩
  | none => exact ⟨_, perform_addSection_of_none hm hs flags⟩

theorem exists_append (hm : m.finalized = false) (n : Name) (bytes : ByteArray) :
    ∃ x, m.perform (append n bytes) = .ok x := by
  obtain ⟨⟨s, m'⟩, hs⟩ := exists_addSection hm n (standardFlags n)
  refine ⟨(s.length, m'.updateSection n (·.append bytes)), ?_⟩
  rw [append, perform_bind, perform_checkMutable_of_open hm, Except.bind]
  dsimp only
  rw [perform_bind, hs]
  rfl

theorem section?_addNew {s : Section} (h : m.section? s.name = none) (n : Name) :
    (m.addNew s).section? n = if n = s.name then some s else m.section? n :=
  Module.section?_append_new h n

theorem updateSection_of_none (h : m.section? n = none) (f : Section → Section) :
    m.updateSection n f = m := by
  have hne : ∀ s ∈ m.sections, s.name ≠ n := by
    simpa [section?, List.find?_eq_none] using h
  unfold updateSection
  rw [List.map_congr_left fun s hs => if_neg (hne s hs), List.map_id']

theorem updateSection_addNew {s : Section} (h : m.section? s.name = none)
    (f : Section → Section) : (m.addNew s).updateSection s.name f = m.addNew (f s) := by
  have hold := congrArg Module.sections (updateSection_of_none h f)
  simp only [updateSection] at hold
  simp only [addNew, updateSection, List.map_append, hold, List.map_cons, List.map_nil, if_true]

theorem perform_append_of_some (hm : m.finalized = false) {s : Section} (hs : m.section? n = some s)
    (bytes : ByteArray) :
    m.perform (append n bytes) = .ok (s.length, m.updateSection n (·.append bytes)) := by
  rw [append, perform_bind, perform_checkMutable_of_open hm, Except.bind]
  dsimp only
  rw [perform_bind, perform_addSection_of_some hs]
  rfl

/-- What fills a section up to an alignment is never too much to ask for. -/
theorem filling_le_addressSpace {boundary : Nat} (h : boundary ≤ maxAlignment) (k : Nat) :
    ((blockSize boundary - k % blockSize boundary : Nat) : Int) ≤ addressSpace := by
  have hpow : blockSize boundary ≤ 2 ^ 16 := Nat.pow_le_pow_right (by decide) h
  have hspace : addressSpace = 0x1000000000000 := rfl
  omega

theorem perform_reserve {count : Nat} (h : (count : Int) ≤ addressSpace) :
    m.perform (reserve n count) = m.perform (append n (zeroBytes count)) := by
  rw [reserve, if_neg (by omega), if_neg (by omega)]
  rfl

theorem perform_align_of_none (hm : m.finalized = false) (hs : m.section? n = none) {boundary : Nat}
    (hb : boundary ≤ maxAlignment) : m.perform (align n boundary) =
      .ok ((), m.addNew ⟨n, standardFlags n, 0, boundary, .empty⟩) := by
  have hupdate := updateSection_addNew (s := ⟨n, standardFlags n, 0, 0, .empty⟩) hs
    fun s => { s with alignment := max s.alignment boundary }
  rw [Nat.zero_max] at hupdate
  rw [align, if_neg (by omega)]
  dsimp only
  rw [perform_bind, perform_addSection_of_none hm hs, Except.bind]
  dsimp only
  rw [perform_bind, perform_modify, Except.bind]
  dsimp only
  rw [if_neg (by simp [Section.length]), hupdate]
  rfl

section Symbols

theorem perform_tryDefine_of_none (hm : m.finalized = false) (hn : m.symbol? n = none)
    (type : SymbolType) (address : Option Address) (origin : Source.Location) :
    m.perform (tryDefine n type address origin) =
      .ok (true, { m with symbols := m.symbols ++ [⟨n, type, .internal, address, false, origin⟩] }) := by
  rw [tryDefine, perform_bind, perform_get, Except.bind]
  dsimp only
  rw [hn, if_neg (by simp), perform_bind, perform_checkMutable_of_open hm]
  rfl

theorem perform_tryDefine_of_some {s : Symbol} (hn : m.symbol? n = some s)
    (type : SymbolType) (address : Option Address) (origin : Source.Location) :
    m.perform (tryDefine n type address origin) = .ok (false, m) := by
  rw [tryDefine, perform_bind, perform_get, Except.bind]
  dsimp only
  rw [hn, if_pos (by simp)]
  rfl

theorem updateSymbol_append_new {s : Symbol} (h : m.symbol? s.name = none) (f : Symbol → Symbol) :
    ({ m with symbols := m.symbols ++ [s] } : Module).updateSymbol s.name f =
      { m with symbols := m.symbols ++ [f s] } := by
  have hne : ∀ t ∈ m.symbols, t.name ≠ s.name := by
    simpa [symbol?, List.find?_eq_none] using h
  unfold updateSymbol
  rw [List.map_append, List.map_congr_left fun t ht => if_neg (hne t ht), List.map_id']
  simp

theorem perform_declare_of_internal (hm : m.finalized = false) {s : Symbol}
    (hn : m.symbol? n = some s) (hs : s.binding = .internal) (binding : Binding) :
    m.perform (declare n binding) =
      .ok (true, m.updateSymbol n fun s => { s with binding := binding }) := by
  rw [declare, perform_bind, perform_checkMutable_of_open hm, Except.bind]
  dsimp only
  rw [perform_bind, perform_get, Except.bind]
  dsimp only
  rw [hn]
  dsimp only
  rw [if_neg (by simp [Symbol.isExported, hs])]
  rfl

theorem perform_track_of_known (hm : m.finalized = false) {r : Reference}
    (hr : m.isSectionName r.symbol ∨ r.symbol ∈ m.symbolNames) :
    m.perform (track r) = .ok ((), { m with references := m.references ++ [r] }) := by
  have hknown : ¬ ((m.symbol? r.symbol).isNone && !m.isSectionName r.symbol) := by
    rw [← symbol?_isSome_iff] at hr
    rcases hr with hr | hr
    · simp [hr]
    · rw [Bool.and_eq_true, Option.isNone_iff_eq_none]
      rintro ⟨hnone, -⟩
      simp [hnone] at hr
  rw [track, perform_bind, perform_checkMutable_of_open hm, Except.bind]
  dsimp only
  rw [perform_bind, perform_get, Except.bind]
  dsimp only
  rw [if_neg hknown]
  rfl

end Symbols

end MipsToolchain.Module
