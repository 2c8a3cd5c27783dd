import MipsToolchain.Proofs.Assembly.Symbols
import MipsToolchain.Proofs.ObjectFile.Addresses

namespace MipsToolchain.ObjectFile

open MipsToolchain.Module Build

theorem Build.keeps_of_forM {α : Type} {P : Module → Prop} {f : α → Build Unit} {es : List α}
    (hf : ∀ e ∈ es, ∀ m m', P m → (f e).Makes m () m' → P m') {m m' : Module} (hm : P m)
    (hrun : (es.forM f).Makes m () m') : P m' := by
  induction es generalizing m with
  | nil => exact makes_forM_nil.mp hrun ▸ hm
  | cons e es ih =>
    obtain ⟨hfirst, hrest⟩ := List.forall_mem_cons.mp hf
    obtain ⟨m₁, hrun₁, hrun⟩ := makes_forM_cons.mp hrun
    exact ih hrest (hfirst m m₁ hm hrun₁) hrun

/-- What is known of a module that is not a program while it is read. -/
structure Relocatable (h : Header) (m : Module) : Prop where
  built : h.isExecutable = false → m.Built
  placed : h.isExecutable = false → ∀ s ∈ m.symbols, ∀ a, s.address = some a → a.isRelocatable →
    a.sectionName ∈ StandardSection.names

structure Located (m : Module) (r : Reference) : Prop where
  assigned : r.kind.isAssigned
  small : ∃ k < 2 ^ 32, r.location.value = Int64.ofNat k
  inBounds : m.InBounds r.location

namespace Relocatable

variable {h : Header} {m m' : Module}

theorem of_appends (hm : Relocatable h m) {n : Name} {bs : List UInt8} (ha : Appends n bs m m')
    (hb : m.Built → m'.Built) : Relocatable h m' :=
  ⟨fun hx => hb (hm.built hx), by rw [ha.symbols]; exact hm.placed⟩

theorem addSection (hm : Relocatable h m) (hr : m.references = []) {s : StandardSection} {size : Nat}
    {bytes : List UInt8} (hrun : (addSection s size bytes).Makes m () m') :
    Relocatable h m' ∧ m'.references = [] := by
  obtain ⟨_, m₁, halign, hrun⟩ := makes_bind.mp hrun
  have halign := makes_lift.mp halign
  obtain ⟨⟨k, ha⟩, -⟩ := appends_align halign
  have h₁ := hm.of_appends ha fun hb => hb.align _ _ halign
  have hr₁ := ha.references.trans hr
  split at hrun
  · obtain ⟨o, hfill⟩ := makes_discard.mp hrun
    have hfill := makes_lift.mp hfill
    have hf := (appends_append hfill).2
    exact ⟨h₁.of_appends hf fun hb => hb.append _ _ hfill, hf.references.trans hr₁⟩
  · obtain ⟨o, hfill⟩ := makes_discard.mp hrun
    have hfill := makes_lift.mp hfill
    have hf := appends_reserve hfill
    exact ⟨h₁.of_appends hf fun hb => hb.reserve _ _ hfill, hf.references.trans hr₁⟩

theorem placed_entryAddress {e : SymbolEntry} {o : Option Address} (ho : entryAddress h e = .ok o)
    {a : Address} (ha : o = some a) (hrel : a.isRelocatable) :
    a.sectionName ∈ StandardSection.names := by
  unfold entryAddress at ho
  split at ho
  · cases ho
    cases ha
  · split at ho
    · cases ho
      cases ha
      cases hrel
    · obtain ⟨n, hn, ho⟩ := except_bind_eq_ok.mp ho
      cases ho
      cases ha
      exact standard_of_nameOfId hn

/-- Only programs say where their sections start. -/
theorem addDefinition (hm : Relocatable h m) (hr : m.references = []) {strings : List UInt8}
    {e : SymbolEntry} (hrun : (addDefinition h strings e).Makes m () m') :
    Relocatable h m' ∧ m'.references = [] := by
  obtain ⟨n, _, hname, hrun⟩ := makes_bind.mp hrun
  obtain ⟨-, rfl⟩ := makes_check.mp hname
  -- The start of a section is refused in an object file, of which alone something is claimed.
  split at hrun
  · unfold addSectionStart at hrun
    obtain ⟨hx, hrun⟩ := makes_unless.mp hrun
    have hx : ¬ h.isExecutable = false := by simpa using hx
    split at hrun
    · exact absurd hrun makes_throw
    · obtain ⟨-, hrun⟩ := makes_unless.mp hrun
      obtain ⟨_, m₁, hsection, hrun⟩ := makes_bind.mp hrun
      obtain ⟨s, hsection⟩ := makes_discard.mp hsection
      have ha := (appends_addSection (makes_lift.mp hsection)).2
      cases makes_lift.mp hrun
      exact ⟨⟨fun h => absurd h hx, fun h => absurd h hx⟩, ha.references.trans hr⟩
  · obtain ⟨address, _, haddress, hrun⟩ := makes_bind.mp hrun
    obtain ⟨ho, rfl⟩ := makes_check.mp haddress
    obtain ⟨-, hrun⟩ := makes_unless.mp hrun
    obtain ⟨-, hrun⟩ := makes_unless.mp hrun
    obtain ⟨fresh, m₁, hdefine, hrun⟩ := makes_bind.mp hrun
    have hdefine := makes_lift.mp hdefine
    obtain ⟨-, hrun⟩ := makes_unless.mp hrun
    have hr₁ := (keepsContents_tryDefine hdefine).references.trans hr
    have h₁ : Relocatable h m₁ := by
      refine ⟨fun hx => (hm.built hx).tryDefine _ _ _ _ hdefine, fun hx s hs a ha hrel => ?_⟩
      rcases tryDefine_eq_ok hdefine with rfl | ⟨-, rfl⟩
      · exact hm.placed hx s hs a ha hrel
      · rcases List.mem_append.mp hs with hs | hs
        · exact hm.placed hx s hs a ha hrel
        · rw [List.mem_singleton.mp hs] at ha
          exact placed_entryAddress ho ha hrel
    split at hrun
    · obtain ⟨declared, hdeclare⟩ := makes_discard.mp hrun
      have hdeclare := makes_lift.mp hdeclare
      refine ⟨⟨fun hx => (h₁.built hx).declare _ _ hdeclare, fun hx s hs a ha hrel => ?_⟩,
        (keepsContents_declare hdeclare).references.trans hr₁⟩
      rcases symbols_declare hdeclare s hs with hs | ⟨t, ht | rfl, rfl⟩
      · exact h₁.placed hx s hs a ha hrel
      · exact h₁.placed hx t ht a ha hrel
      · cases ha
    · obtain ⟨-, rfl⟩ := makes_pure.mp hrun
      exact ⟨h₁, hr₁⟩

/-- A reference is taken only if its word is there to be read. -/
theorem addReference (hm : Relocatable h m) (hr : ∀ r ∈ m.references, Located m r) {r : Reference}
    (hsmall : ∃ k < 2 ^ 32, r.location.value = Int64.ofNat k)
    (hrun : (addReference h r).Makes m () m') :
    Relocatable h m' ∧ ∀ r ∈ m'.references, Located m' r := by
  obtain ⟨-, hrun⟩ := makes_unless.mp hrun
  obtain ⟨hk, hrun⟩ := makes_unless.mp hrun
  obtain ⟨_, _, hget, hrun⟩ := makes_bind.mp hrun
  obtain ⟨rfl, rfl⟩ := makes_get.mp hget
  split at hrun
  · cases hrun
  · exact absurd hrun makes_throw
  · next w hw =>
    have htrack := makes_lift.mp hrun
    obtain ⟨hsections, -, hreferences⟩ := perform_track htrack
    have hsection : ∀ n, m'.section? n = m.section? n := fun n => by
      simp only [Module.section?, hsections]
    -- The offset is read from 32 bits, so that a word which can be read at it is inside of the
    -- section.
    have hlocated : Located m r := by
      obtain ⟨s, hs, hle⟩ := inside_of_wordIn? (readWord_eq_ok hw)
      obtain ⟨k, hk', hvalue⟩ := hsmall
      have hint : r.location.value.toInt = k := by
        rw [hvalue]
        exact Int64.toInt_ofNat_of_lt (by omega)
      have hoffset : r.location.offset = k := by
        rw [Address.offset, hint, Int.toNat_natCast]
      refine ⟨by simpa using hk, ⟨k, hk', hvalue⟩, s, hs, by omega, by omega⟩
    refine ⟨⟨fun hx => (hm.built hx).track _ htrack, fun hx s hs a ha hrel => ?_⟩, fun q hq => ?_⟩
    · rcases track_eq_ok htrack with ⟨-, rfl⟩ | ⟨-, -, rfl⟩
      · exact hm.placed hx s hs a ha hrel
      · rcases List.mem_append.mp hs with hs | hs
        · exact hm.placed hx s hs a ha hrel
        · rw [List.mem_singleton.mp hs] at ha
          cases ha
    · rw [hreferences, List.mem_append, List.mem_singleton] at hq
      have hold : Located m q := hq.elim (hr q) fun heq => heq ▸ hlocated
      obtain ⟨s, hs, hin⟩ := hold.inBounds
      exact ⟨hold.assigned, hold.small, s, (hsection _).trans hs, hin⟩

end Relocatable

theorem relocatable_addParts {h : Header} {p : Parts} {n : String} {m : Module}
    (hrun : (addParts h p).Makes { name := n, order := h.order } () m) :
    Relocatable h m ∧ ∀ r ∈ m.references, Located m r := by
  obtain ⟨_, m₁, hsections, hrun⟩ := makes_bind.mp hrun
  obtain ⟨_, m₂, hdefinitions, hrun⟩ := makes_bind.mp hrun
  obtain ⟨_, m₃, hrelocations, hreferences⟩ := makes_bind.mp hrun
  have h₁ : Relocatable h m₁ ∧ m₁.references = [] :=
    keeps_of_forM (P := fun m => Relocatable h m ∧ m.references = [])
      (fun e _ _ _ hm hstep => hm.1.addSection hm.2 hstep)
      ⟨⟨fun _ => .new n h.order, fun _ s hs => by cases hs⟩, rfl⟩ hsections
  have h₂ : Relocatable h m₂ ∧ m₂.references = [] :=
    keeps_of_forM (P := fun m => Relocatable h m ∧ m.references = [])
      (fun e _ _ _ hm hstep => hm.1.addDefinition hm.2 hstep) h₁ hdefinitions
  have h₃ : Relocatable h m₃ ∧ ∀ r ∈ m₃.references, Located m₃ r := by
    refine keeps_of_forM (P := fun m => Relocatable h m ∧ ∀ r ∈ m.references, Located m r)
      (fun e _ m m' hm hstep => ?_) ⟨h₂.1, by simp [h₂.2]⟩ hrelocations
    obtain ⟨_, _, hlocation, hstep⟩ := makes_bind.mp hstep
    obtain ⟨-, rfl⟩ := makes_check.mp hlocation
    obtain ⟨_, _, htarget, hstep⟩ := makes_bind.mp hstep
    obtain ⟨-, rfl⟩ := makes_check.mp htarget
    exact hm.1.addReference hm.2 ⟨_, e.address.toNat_lt, rfl⟩ hstep
  refine keeps_of_forM (P := fun m => Relocatable h m ∧ ∀ r ∈ m.references, Located m r)
    (fun e _ m m' hm hstep => ?_) h₃ hreferences
  obtain ⟨_, _, hname, hstep⟩ := makes_bind.mp hstep
  obtain ⟨-, rfl⟩ := makes_check.mp hname
  obtain ⟨_, _, hlocation, hstep⟩ := makes_bind.mp hstep
  obtain ⟨-, rfl⟩ := makes_check.mp hlocation
  exact hm.1.addReference hm.2 ⟨_, e.value.toNat_lt, rfl⟩ hstep

end MipsToolchain.ObjectFile
