import MipsToolchain.Proofs.Link.Exports
import MipsToolchain.Proofs.Object.Results

namespace MipsToolchain.Module

structure Open (m : Module) : Prop where
  unfinalized : m.finalized = false
  assigned : ∀ s ∈ m.symbols, s.binding.isAssigned

/-- A step that a module takes without a fault, and that leaves it open. -/
def Accepts {α : Type} (m : Module) (e : Edit α) : Prop :=
  ∃ a m', m.perform e = .ok (a, m') ∧ m'.Open

theorem open_new (name : String) (order : ByteOrder) : ({ name, order } : Module).Open :=
  ⟨rfl, fun _ hs => by cases hs⟩

namespace Open

variable {m m' : Module} {n : Name}

theorem of_appends (h : m.Open) {bs : List UInt8} (ha : Appends n bs m m') : m'.Open :=
  ⟨ha.finalized.trans h.unfinalized, by rw [ha.symbols]; exact h.assigned⟩

theorem updateSection (h : m.Open) (n : Name) (f : Section → Section) : (m.updateSection n f).Open :=
  ⟨h.unfinalized, h.assigned⟩

theorem addSymbol (h : m.Open) {s : Symbol} (hs : s.binding.isAssigned) :
    ({ m with symbols := m.symbols ++ [s] } : Module).Open := by
  refine ⟨h.unfinalized, fun t ht => ?_⟩
  rcases List.mem_append.mp ht with ht | ht
  · exact h.assigned t ht
  · exact List.mem_singleton.mp ht ▸ hs

theorem updateSymbol (h : m.Open) (n : Name) {f : Symbol → Symbol}
    (hf : ∀ s ∈ m.symbols, (f s).binding.isAssigned) : (m.updateSymbol n f).Open := by
  refine ⟨h.unfinalized, fun t ht => ?_⟩
  obtain ⟨s, hs, rfl⟩ := List.mem_map.mp ht
  split
  · exact hf s hs
  · exact h.assigned s hs

theorem accepts_addSection (h : m.Open) (n : Name) (flags : SectionFlags) :
    m.Accepts (addSection n flags) := by
  obtain ⟨⟨s, m'⟩, hm'⟩ := exists_addSection h.unfinalized n flags
  exact ⟨s, m', hm', h.of_appends (appends_addSection hm').2⟩

theorem accepts_append (h : m.Open) (n : Name) (bytes : ByteArray) : m.Accepts (append n bytes) := by
  obtain ⟨⟨k, m'⟩, hm'⟩ := exists_append h.unfinalized n bytes
  exact ⟨k, m', hm', h.of_appends (appends_append hm').2⟩

theorem accepts_appendWord (h : m.Open) (n : Name) (w : UInt32) : m.Accepts (appendWord n w) := by
  obtain ⟨k, m', hm', hopen⟩ := h.accepts_append n (m.order.wordBytes w).toByteArray
  refine ⟨k, m', ?_, hopen⟩
  rw [appendWord, perform_bind, perform_get]
  exact hm'

theorem accepts_reserve (h : m.Open) (n : Name) {count : Int} (hpos : 0 ≤ count)
    (hmax : count ≤ addressSpace) : m.Accepts (reserve n count) := by
  obtain ⟨k, rfl⟩ := Int.eq_ofNat_of_zero_le hpos
  unfold Accepts
  rw [perform_reserve hmax]
  exact h.accepts_append n _

theorem accepts_align (h : m.Open) (n : Name) {boundary : Nat} (hb : boundary ≤ maxAlignment) :
    m.Accepts (align n boundary) := by
  obtain ⟨s, m₁, hm₁, hopen⟩ := h.accepts_addSection n (standardFlags n)
  have halign := hopen.updateSection n fun s => { s with alignment := max s.alignment boundary }
  have hsize : blockSize boundary ≤ 2 ^ maxAlignment :=
    Nat.pow_le_pow_right (by omega) hb
  have hle : ((blockSize boundary - s.length % blockSize boundary : Nat) : Int) ≤ addressSpace := by
    have hmax : ((2 ^ maxAlignment : Nat) : Int) ≤ addressSpace := by decide
    omega
  obtain ⟨k, m₂, hm₂, hopen₂⟩ := halign.accepts_reserve n (Int.natCast_nonneg _) hle
  unfold Accepts
  rw [align, if_neg (by omega)]
  dsimp only
  rw [perform_bind, hm₁, Except.bind]
  dsimp only
  rw [perform_bind, perform_modify, Except.bind]
  dsimp only
  split
  · exact ⟨(), m₂, by rw [perform_discard, hm₂]; rfl, hopen₂⟩
  · exact ⟨(), _, rfl, halign⟩

theorem perform_mutable {α : Type} (h : m.Open) (e : Edit α) :
    m.perform (checkMutable >>= fun _ => e) = m.perform e := by
  rw [perform_bind, perform_checkMutable_of_open h.unfinalized]
  rfl

theorem accepts_define (h : m.Open) (n : Name) (type : SymbolType) (a : Address)
    (origin : Source.Location) : m.Accepts (define n type a origin) := by
  unfold Accepts
  rw [define, perform_bind, perform_get, Except.bind]
  dsimp only
  split
  · next hnone =>
    exact ⟨true, _, perform_tryDefine_of_none h.unfinalized hnone type (some a) origin,
      h.addSymbol rfl⟩
  · split
    · exact ⟨false, m, rfl, h⟩
    · exact ⟨true, _, h.perform_mutable _, h.updateSymbol n fun s hs => h.assigned s hs⟩

/-- Only a symbol that others see cannot become internal. -/
theorem accepts_declare (h : m.Open) (n : Name) {binding : Binding} (hb : binding.isAssigned)
    (hx : binding ≠ .internal) : ∃ m', m.perform (declare n binding) = .ok (true, m') ∧ m'.Open := by
  rw [declare, h.perform_mutable, perform_bind, perform_get, Except.bind]
  dsimp only
  split
  · refine ⟨_, rfl, (h.addSymbol (s := .mention n) rfl).updateSymbol n fun _ _ => hb⟩
  · rw [if_neg (by simp [hx])]
    exact ⟨_, rfl, h.updateSymbol n fun _ _ => hb⟩

theorem accepts_track (h : m.Open) (r : Reference) : m.Accepts (track r) := by
  unfold Accepts
  rw [track, h.perform_mutable, perform_bind, perform_get, Except.bind]
  dsimp only
  split
  · have hopen := h.addSymbol (s := .mention r.symbol) rfl
    exact ⟨(), _, rfl, ⟨hopen.unfinalized, hopen.assigned⟩⟩
  · exact ⟨(), _, rfl, ⟨h.unfinalized, h.assigned⟩⟩

end Open

end MipsToolchain.Module
