import MipsToolchain.Proofs.Assembly.References
import MipsToolchain.Proofs.ObjectFile.Packing
import MipsToolchain.Proofs.Object.Operations

namespace MipsToolchain

open Diagnostic Guarded MipsToolchain.Module

/-- A symbol as assembling a text can leave it in a module. -/
structure Symbol.SoundIn (m : Module) (s : Symbol) : Prop where
  name : s.name.ZeroFree
  type : s.type.isAssigned
  binding : s.binding.isAssigned
  placed : ∀ a, s.address = some a → a.isRelocatable → m.isSectionName a.sectionName
  labelled : s.type = .label → ∀ a, s.address = some a → a.isRelocatable

theorem Symbol.SoundIn.mono {m m' : Module} {s : Symbol} (h : s.SoundIn m)
    (hn : ∀ n, m.isSectionName n → m'.isSectionName n) : s.SoundIn m' :=
  ⟨h.name, h.type, h.binding, fun a ha hrel => hn _ (h.placed a ha hrel), h.labelled⟩

namespace Module

variable {m m' : Module} {n : Name}

theorem mem_updateSymbol {f : Symbol → Symbol} {s : Symbol} (h : s ∈ (m.updateSymbol n f).symbols) :
    s ∈ m.symbols ∧ s.name ≠ n ∨ ∃ t ∈ m.symbols, t.name = n ∧ s = f t := by
  obtain ⟨t, ht, rfl⟩ := List.mem_map.mp h
  by_cases hn : t.name = n
  · exact .inr ⟨t, ht, hn, if_pos hn⟩
  · rw [if_neg hn]
    exact .inl ⟨ht, hn⟩

theorem symbols_define {type : SymbolType} {a : Address} {origin : Source.Location} {defined : Bool}
    (h : m.perform (define n type a origin) = .ok (defined, m')) : ∀ s ∈ m'.symbols,
      s ∈ m.symbols ∨ s.name = n ∧ s.type = type ∧ s.address = some a ∧
        (s.binding = .internal ∨ ∃ t ∈ m.symbols, s.binding = t.binding) := by
  intro s hs
  rcases define_eq_ok h with ⟨-, rfl⟩ | ⟨-, rfl⟩ | ⟨_, -, -, rfl⟩
  · exact .inl hs
  · rw [List.mem_append, List.mem_singleton] at hs
    rcases hs with hs | rfl
    · exact .inl hs
    · exact .inr ⟨rfl, rfl, rfl, .inl rfl⟩
  · rcases mem_updateSymbol hs with ⟨hs, -⟩ | ⟨t, ht, hn, rfl⟩
    · exact .inl hs
    · exact .inr ⟨hn, rfl, rfl, .inr ⟨t, ht, rfl⟩⟩

theorem symbols_declare {binding : Binding} {declared : Bool}
    (h : m.perform (declare n binding) = .ok (declared, m')) : ∀ s ∈ m'.symbols,
      s ∈ m.symbols ∨ ∃ t, (t ∈ m.symbols ∨ t = .mention n) ∧ s = { t with binding } := by
  intro s hs
  rcases declare_eq_ok h with ⟨-, rfl⟩ | ⟨-, rfl⟩ | ⟨-, rfl⟩
  · exact .inl hs
  · rcases mem_updateSymbol hs with ⟨hs, hne⟩ | ⟨t, ht, hn, rfl⟩
    · rw [List.mem_append, List.mem_singleton] at hs
      refine .inl (hs.resolve_right ?_)
      rintro rfl
      exact hne rfl
    · exact .inr ⟨t, by simpa using ht, rfl⟩
  · rcases mem_updateSymbol hs with ⟨hs, -⟩ | ⟨t, ht, hn, rfl⟩
    · exact .inl hs
    · exact .inr ⟨t, .inl ht, rfl⟩

end Module

namespace Environment

/-- What holds of the state whatever text was assembled so far. -/
structure Sound (env : Environment) : Prop where
  built : env.module.Built
  intact : env.module.failed = false
  current : env.module.isSectionName env.current
  named : env.current.isEmpty = false
  symbols : ∀ s ∈ env.module.symbols, s.SoundIn env.module

variable {env env' : Environment}

theorem Sound.mono (h : Sound env) (hb : env'.module.Built)
    (hf : env'.module.failed = env.module.failed)
    (hn : ∀ n, env.module.isSectionName n → env'.module.isSectionName n)
    (hc : env'.current = env.current)
    (hs : ∀ s ∈ env'.module.symbols, s ∈ env.module.symbols ∨ s.SoundIn env'.module) :
    Sound env' where
  built := hb
  intact := hf.trans h.intact
  current := hc ▸ hn _ h.current
  named := hc ▸ h.named
  symbols s hmem := (hs s hmem).elim (fun hold => (h.symbols s hold).mono hn) id

theorem Sound.of_appends {m : Module} {n : Name} {bs : List UInt8} (h : Sound env) (hb : m.Built)
    (ha : Appends n bs env.module m) : Sound { env with module := m } :=
  h.mono hb ha.failed ha.isSectionName rfl fun s hs => .inl (by rwa [← ha.symbols])

theorem Sound.resolve (h : Sound env) {k : Name} {a : Address} (hk : env.resolve k = some a)
    (ha : a.isRelocatable) : env.module.isSectionName a.sectionName := by
  unfold Environment.resolve at hk
  split at hk
  · next s hs =>
    split at hk
    · cases hk
    · exact (h.symbols s (List.mem_of_find?_eq_some hs)).placed a hk ha
  · split at hk
    · next hn =>
      cases hk
      exact hn
    · cases hk

theorem Sound.mentions (h : Sound env) {n : Name} (hn : env.Mentions n) :
    n.ZeroFree ∨ env.module.isSectionName n := by
  rcases hn with hz | ⟨k, a, hk, rfl⟩
  · exact .inl hz
  · by_cases ha : a.isRelocatable
    · exact .inr (h.resolve hk ha)
    · rw [ObjectFile.sectionName_eq_empty ha]
      exact .inl RawText.zeroFree_empty

theorem Sound.places (h : Sound env) {a : Address} (hp : env.Places a) (ha : a.isRelocatable) :
    env.module.isSectionName a.sectionName := by
  rcases hp ha with hc | ⟨k, b, hk, hb⟩
  · exact hc ▸ h.current
  · by_cases hrel : b.isRelocatable
    · exact hb ▸ h.resolve hk hrel
    · rw [Address.isRelocatable, ← hb] at ha
      exact absurd ha hrel

theorem sound_track {m : Module} {r : Reference} (h : Sound env)
    (hr : r.symbol.ZeroFree ∨ env.module.isSectionName r.symbol)
    (ht : env.module.perform (track r) = .ok ((), m)) : Sound { env with module := m } := by
  have hfailed : m.failed = env.module.failed := by
    rcases track_eq_ok ht with ⟨-, rfl⟩ | ⟨-, -, rfl⟩ <;> rfl
  have hkeeps := isSectionName_congr (perform_track ht).1
  refine h.mono (h.built.track r ht) hfailed (fun n hn => (hkeeps n).trans hn) rfl fun s hs => ?_
  rcases track_eq_ok ht with ⟨-, rfl⟩ | ⟨-, hnew, rfl⟩
  · exact .inl hs
  · rw [List.mem_append, List.mem_singleton] at hs
    refine hs.imp_right fun hs => ?_
    have hz : r.symbol.ZeroFree := hr.resolve_right (by simp [hnew])
    rw [hs]
    exact ⟨hz, rfl, rfl, nofun, nofun⟩

theorem sound_storeWords {tracked : Bool} {ws : List EncodedWord} (h : Sound env)
    (hws : ∀ w ∈ ws, ∀ r, w.reference = some r →
      r.symbol.ZeroFree ∨ env.module.isSectionName r.symbol)
    (hstore : storeWords tracked ws env = .ok env') : Sound env' := by
  induction ws generalizing env with
  | nil =>
    cases hstore
    exact h
  | cons w ws ih =>
    rw [storeWords_cons] at hstore
    obtain ⟨env₁, ht, hstore⟩ := except_bind_eq_ok.mp hstore
    obtain ⟨env₂, ha, hstore⟩ := except_bind_eq_ok.mp hstore
    obtain ⟨hw, hrest⟩ := List.forall_mem_cons.mp hws
    obtain ⟨k, m₂, hm₂, rfl⟩ := apply_eq_ok ha
    obtain ⟨-, happ⟩ := appends_appendWord hm₂
    have htracked : Sound env₁ ∧
        ∀ n, env.module.isSectionName n → env₁.module.isSectionName n := by
      rcases trackWord_eq_ok ht with ⟨rfl, -⟩ | ⟨r, u, m₁, -, hr, hm₁, rfl⟩
      · exact ⟨h, fun _ => id⟩
      · have hkeeps := isSectionName_congr (perform_track hm₁).1
        exact ⟨sound_track h (hw r hr) hm₁, fun n hn => (hkeeps n).trans hn⟩
    obtain ⟨hsound, hnames⟩ := htracked
    refine ih (hsound.of_appends (hsound.built.appendWord _ _ hm₂) happ) (fun w' hw' r hr => ?_) hstore
    exact (hrest w' hw' r hr).imp_right fun hn => happ.isSectionName _ (hnames _ hn)

theorem Sound.define {m : Module} {n : Name} {type : SymbolType} {a : Address}
    {origin : Source.Location} {defined : Bool} (h : Sound env) (hn : n.ZeroFree)
    (hd : env.Defines type a)
    (hm : env.module.perform (Module.define n type a origin) = .ok (defined, m)) :
    Sound { env with module := m } := by
  have hkeeps : ∀ k, env.module.isSectionName k → m.isSectionName k := fun k hk =>
    ((keepsContents_define hm).isSectionName k).trans hk
  have hfailed : m.failed = env.module.failed := by
    rcases define_eq_ok hm with ⟨-, rfl⟩ | ⟨-, rfl⟩ | ⟨_, -, -, rfl⟩ <;> rfl
  refine h.mono (h.built.define _ _ _ _ hm) hfailed hkeeps rfl fun s hs => ?_
  -- All symbols but the defined one are as before.
  refine (symbols_define hm s hs).imp_right fun hdefined => ?_
  obtain ⟨hname, hst, haddress, hbinding⟩ := hdefined
  refine ⟨hname ▸ hn, ?type, ?binding, fun b hb hrel => ?placed, fun hlabel b hb => ?labelled⟩
  case type => rcases hd with ⟨rfl, -⟩ | ⟨rfl, -⟩ <;> rw [hst] <;> rfl
  case binding =>
    rcases hbinding with hb | ⟨t, ht, hb⟩
    · rw [hb]
      rfl
    · rw [hb]
      exact (h.symbols t ht).binding
  case placed =>
    rw [haddress] at hb
    cases hb
    exact hkeeps _ (h.places hd.places hrel)
  case labelled =>
    rw [haddress] at hb
    cases hb
    rcases hd with ⟨-, rfl⟩ | ⟨rfl, -⟩
    · simp [Address.isRelocatable, location, Address.relative, h.named]
    · cases hst.symm.trans hlabel

theorem Sound.declare {m : Module} {n : Name} {binding : Binding} {declared : Bool} (h : Sound env)
    (hn : n.ZeroFree) (hbinding : binding = .global ∨ binding = .weak)
    (hm : env.module.perform (Module.declare n binding) = .ok (declared, m)) :
    Sound { env with module := m } := by
  have hkeeps : ∀ k, env.module.isSectionName k → m.isSectionName k := fun k hk =>
    ((keepsContents_declare hm).isSectionName k).trans hk
  have hfailed : m.failed = env.module.failed := by
    rcases declare_eq_ok hm with ⟨-, rfl⟩ | ⟨-, rfl⟩ | ⟨-, rfl⟩ <;> rfl
  refine h.mono (h.built.declare _ _ hm) hfailed hkeeps rfl fun s hs => ?_
  refine (symbols_declare hm s hs).imp_right fun hdeclared => ?_
  obtain ⟨t, ht, heq⟩ := hdeclared
  have hassigned : s.binding.isAssigned := by
    rcases hbinding with rfl | rfl <;> rw [heq] <;> rfl
  rcases ht with ht | rfl
  · have hold := (h.symbols t ht).mono hkeeps
    exact ⟨heq ▸ hold.name, heq ▸ hold.type, hassigned, heq ▸ hold.placed, heq ▸ hold.labelled⟩
  · subst heq
    exact ⟨hn, rfl, hassigned, (fun b hb => by cases hb), fun _ b hb => by cases hb⟩

theorem Move.sound {payload : Payload} (hmove : Move payload env env') (h : Sound env) : Sound env' := by
  cases hmove with
  | align he =>
    obtain ⟨u, m, hm, rfl⟩ := apply_eq_ok he
    obtain ⟨⟨k, ha⟩, -⟩ := appends_align hm
    exact h.of_appends (h.built.align _ _ hm) ha
  | reserve he =>
    obtain ⟨k, m, hm, rfl⟩ := apply_eq_ok he
    exact h.of_appends (h.built.reserve _ _ hm) (appends_reserve hm)
  | append _ he =>
    obtain ⟨k, m, hm, rfl⟩ := apply_eq_ok he
    exact h.of_appends (h.built.append _ _ hm) (appends_append hm).2
  | store _ _ _ _ hn he =>
    exact sound_storeWords h (fun w hw r hr => h.mentions (hn w hw r hr)) he
  | switch hn _ he =>
    obtain ⟨env₁, ha, rfl⟩ := except_map_eq_ok.mp he
    obtain ⟨s, m, hm, rfl⟩ := apply_eq_ok ha
    have happ := (appends_addSection hm).2
    obtain ⟨hb, hf, -, -, hs⟩ := h.of_appends (h.built.addSection _ _ hm) happ
    refine ⟨hb, hf, ?_, hn, hs⟩
    simp [Module.isSectionName, happ.present]
  | define hn hd he =>
    obtain ⟨m, hm, rfl⟩ := edit_eq_ok he
    exact h.define hn hd hm
  | declare hn hbinding he =>
    obtain ⟨m, hm, rfl⟩ := edit_eq_ok he
    exact h.declare hn hbinding hm
  | option => exact ⟨h.built, h.intact, h.current, h.named, h.symbols⟩

theorem MovesBy.sound {payload : Payload} (hm : MovesBy payload env env') (h : Sound env) : Sound env' := by
  induction hm with
  | refl => exact h
  | tail _ hmove ih => exact hmove.sound ih

theorem sound_initial (name : String) (order : ByteOrder) :
    Sound (.initial { name, order : Module }) :=
  ⟨.new name order, rfl, rfl, rfl, fun s hs => by cases hs⟩

end Environment

/-- A module that is assembled without an error can be used, and all its symbols make sense. -/
theorem assembleLines_sound {s : Settings} {name : String} {text : List String}
    {r : Reported Module} (h : assembleLines s name text = .ok r)
    (he : errorCount r.diagnostics = 0) : r.value.Built ∧ r.value.finalized ∧
      r.value.failed = false ∧ ∀ t ∈ r.value.symbols, t.SoundIn r.value := by
  unfold assembleLines at h
  split at h
  · cases h
  · next out hout =>
    cases h
    have hmoves : Environment.Moves _ out.value := Environment.moves_lines _ _ _ _ _ out hout
    have hsound := hmoves.sound (Environment.sound_initial name s.order)
    dsimp only at he ⊢
    rw [if_neg (by omega)]
    exact ⟨hsound.built.finalize, rfl, hsound.intact, fun t ht =>
      (hsound.symbols t ht).mono fun _ => id⟩

end MipsToolchain
