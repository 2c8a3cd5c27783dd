import MipsToolchain.Proofs.Object.Results
import MipsToolchain.Proofs.ObjectFile.Entries

namespace MipsToolchain.ObjectFile

open MipsToolchain.Module

namespace Build

variable {α β : Type} {m m' : Module}

-- A step that finds nothing wrong, with its result and the module that it leaves.
def Makes (x : Build α) (m : Module) (a : α) (m' : Module) : Prop :=
  m.perform x.run = .ok (.ok a, m')

theorem Makes.unique {x : Build α} {a b : α} {m₁ m₂ : Module} (h : x.Makes m a m₁)
    (h' : x.Makes m b m₂) : m₁ = m₂ := by
  rw [Makes, h] at h'
  cases h'
  rfl

theorem makes_pure {a b : α} : (pure a : Build α).Makes m b m' ↔ a = b ∧ m = m' := by
  change (Except.ok (Except.ok a, m) : Except Fault (Except ReadError α × Module)) = _ ↔ _
  simp

theorem makes_bind {x : Build α} {f : α → Build β} {b : β} {m'' : Module} :
    (x >>= f).Makes m b m'' ↔ ∃ a m', x.Makes m a m' ∧ (f a).Makes m' b m'' := by
  have hrun : m.perform (x >>= f).run = (m.perform x.run).bind fun y =>
      match y.1 with
      | .error e => .ok (.error e, y.2)
      | .ok a => y.2.perform (f a).run := by
    rw [ExceptT.run_bind, perform_bind]
    rcases m.perform x.run with e | ⟨e | a, m'⟩ <;> rfl
  unfold Makes
  rw [hrun]
  rcases m.perform x.run with e | ⟨e | a, m₁⟩ <;> simp [Except.bind]

theorem makes_throw {e : ReadError} {a : α} : ¬ (throw e : Build α).Makes m a m' := by
  intro h
  cases h

theorem makes_unless {c : Prop} [Decidable c] {e : ReadError} {f : α → Build β} {x : Build β} {b : β} :
    (if c then throw e >>= f else x).Makes m b m' ↔ ¬ c ∧ x.Makes m b m' := by
  split
  · next hc =>
    rw [makes_bind]
    exact ⟨fun ⟨_, _, h, _⟩ => absurd h makes_throw, fun h => absurd hc h.1⟩
  · next hc => simp [hc]

theorem makes_lift {e : Edit α} {a : α} :
    (liftM e : Build α).Makes m a m' ↔ m.perform e = .ok (a, m') := by
  have hrun : (liftM e : Build α).run = e >>= fun a => pure (Except.ok a) :=
    map_eq_pure_bind (m := Edit) Except.ok e
  rw [Makes, hrun, perform_bind]
  rcases m.perform e with f | ⟨b, m₁⟩
  · simp [Except.bind]
  · simp [Except.bind, perform_ok]

theorem makes_discard {x : Build α} :
    (discard x : Build Unit).Makes m () m' ↔ ∃ a, x.Makes m a m' := by
  have h : discard x = x >>= fun _ => pure () := map_eq_pure_bind (m := Build) (fun _ => ()) x
  rw [h, makes_bind]
  constructor
  · rintro ⟨a, m₁, hx, hp⟩
    obtain ⟨-, rfl⟩ := makes_pure.mp hp
    exact ⟨a, hx⟩
  · rintro ⟨a, hx⟩
    exact ⟨a, m', hx, makes_pure.mpr ⟨rfl, rfl⟩⟩

theorem makes_check {x : Except ReadError α} {a : α} :
    (check x).Makes m a m' ↔ x = .ok a ∧ m = m' := by
  change (Except.ok (x, m) : Except Fault (Except ReadError α × Module)) = _ ↔ _
  simp

theorem makes_get {a : Module} : (get : Build Module).Makes m a m' ↔ m = a ∧ m = m' := by
  change (Except.ok (Except.ok m, m) : Except Fault (Except ReadError Module × Module)) = _ ↔ _
  simp

theorem makes_forM_nil {f : α → Build Unit} : ([].forM f).Makes m () m' ↔ m = m' := by
  change (pure () : Build Unit).Makes m () m' ↔ _
  simp [makes_pure]

theorem makes_forM_cons {f : α → Build Unit} {x : α} {xs : List α} :
    ((x :: xs).forM f).Makes m () m' ↔ ∃ m₁, (f x).Makes m () m₁ ∧ (xs.forM f).Makes m₁ () m' := by
  change (f x >>= fun _ => xs.forM f).Makes m () m' ↔ _
  rw [makes_bind]
  exact ⟨fun ⟨_, m₁, h⟩ => ⟨m₁, h⟩, fun ⟨m₁, h⟩ => ⟨_, m₁, h⟩⟩

theorem makes_forM_append {f : α → Build Unit} {xs ys : List α} : ((xs ++ ys).forM f).Makes m () m' ↔
    ∃ m₁, (xs.forM f).Makes m () m₁ ∧ (ys.forM f).Makes m₁ () m' := by
  induction xs generalizing m with
  | nil =>
    simp only [List.nil_append, makes_forM_nil]
    simp
  | cons x xs ih =>
    simp only [List.cons_append, makes_forM_cons, ih]
    constructor
    · rintro ⟨m₁, hx, m₂, hxs, hys⟩
      exact ⟨m₂, ⟨m₁, hx, hxs⟩, hys⟩
    · rintro ⟨m₂, ⟨m₁, hx, hxs⟩, hys⟩
      exact ⟨m₁, hx, m₂, hxs, hys⟩

theorem forM_map_congr {γ δ : Type} {xs : List α} {f : α → γ} {f' : α → δ} {g : γ → Build Unit}
    {g' : δ → Build Unit} (h : ∀ x ∈ xs, g (f x) = g' (f' x)) :
    (xs.map f).forM g = (xs.map f').forM g' := by
  induction xs with
  | nil => rfl
  | cons x xs ih =>
    obtain ⟨hx, hxs⟩ := List.forall_mem_cons.mp h
    change (g (f x) >>= fun _ => (xs.map f).forM g) = (g' (f' x) >>= fun _ => (xs.map f').forM g')
    rw [hx, ih hxs]

end Build

open Build

section Sections

/-- The bytes of a section of a file, of which only the number is kept if all are zero. -/
def filling (s : StandardSection) (size : Nat) (bytes : List UInt8) : ByteArray :=
  if hasContents s then bytes.toByteArray else zeroBytes size

theorem makes_addSection {m : Module} {s : StandardSection} {size : Nat}
    (hm : m.finalized = false) (hs : m.section? s.name = none)
    (hsize : (size : Int) ≤ addressSpace) (bytes : List UInt8) :
    (addSection s size bytes).Makes m ()
      (m.addNew ⟨s.name, s.flags, 0, 2, filling s size bytes⟩) := by
  have hflags : standardFlags s.name = s.flags := by cases s <;> rfl
  have hal := perform_align_of_none hm hs (show 2 ≤ maxAlignment by decide)
  have hfill : ∀ content : ByteArray,
      (m.addNew ⟨s.name, s.flags, 0, 2, .empty⟩).perform (append s.name content) =
        .ok (0, m.addNew ⟨s.name, s.flags, 0, 2, content⟩) := by
    intro content
    have hsome := section?_addNew (s := ⟨s.name, s.flags, 0, 2, .empty⟩) hs s.name
    rw [if_pos rfl] at hsome
    rw [perform_append_of_some (m := m.addNew ⟨s.name, s.flags, 0, 2, .empty⟩) hm hsome]
    have hupdate := updateSection_addNew (s := ⟨s.name, s.flags, 0, 2, .empty⟩) hs
      (·.append content)
    have happend : (⟨s.name, s.flags, 0, 2, .empty⟩ : Section).append content =
        ⟨s.name, s.flags, 0, 2, content⟩ := by
      simp only [Section.append, ByteArray.empty_append]
    rw [happend] at hupdate
    rw [hupdate]
    rfl
  rw [hflags] at hal
  unfold addSection filling
  refine makes_bind.mpr ⟨(), _, makes_lift.mpr hal, ?_⟩
  split
  · exact makes_discard.mpr ⟨_, makes_lift.mpr (hfill _)⟩
  · exact makes_discard.mpr ⟨0, makes_lift.mpr ((perform_reserve hsize).trans (hfill _))⟩

end Sections

section Definitions

-- What an entry says about a symbol, whether or not its type and its binding make sense.
def readSymbol (h : Header) (strings : List UInt8) (e : SymbolEntry) : Except ReadError Symbol := do
  let n ← stringAt strings e.nameIndex
  let address ← entryAddress h e
  pure ⟨n, .ofCode e.kind, .ofCode e.binding, address, false, .none⟩

theorem readSymbol_eq_ok {h : Header} {strings : List UInt8} {e : SymbolEntry} {s : Symbol} :
    readSymbol h strings e = .ok s ↔ ∃ n address, stringAt strings e.nameIndex = .ok n ∧
      entryAddress h e = .ok address ∧
      s = ⟨n, .ofCode e.kind, .ofCode e.binding, address, false, .none⟩ := by
  simp only [readSymbol, except_bind_eq_ok]
  constructor
  · rintro ⟨n, hn, address, ha, hs⟩
    cases hs
    exact ⟨n, address, hn, ha, rfl⟩
  · rintro ⟨n, address, hn, ha, rfl⟩
    exact ⟨n, hn, address, ha, rfl⟩

-- Whether an entry is about a symbol and has a type and a binding that exist.
def SymbolEntry.Proper (e : SymbolEntry) : Prop :=
  e.isSectionStart = false ∧ e.kind ≤ SymbolType.constant.code ∧ e.binding ≤ Binding.weak.code

variable {h : Header} {strings : List UInt8} {m m' : Module}

theorem makes_declare {n : Name} {type : SymbolType} {address : Option Address} {code : UInt8}
    (hm : m.finalized = false) (hn : m.symbol? n = none) :
    (if code ≠ 0 then discard (liftM (Module.declare n (.ofCode code))) else pure () :
      Build Unit).Makes { m with symbols := m.symbols ++ [⟨n, type, .internal, address, false, .none⟩] }
        () m' ↔
    m' = { m with symbols := m.symbols ++ [⟨n, type, .ofCode code, address, false, .none⟩] } := by
  let s : Symbol := ⟨n, type, .internal, address, false, .none⟩
  have hs : ({ m with symbols := m.symbols ++ [s] } : Module).symbol? n = some s :=
    (symbol?_append_new (s := s) hn n).trans (if_pos rfl)
  split
  · have hdeclare := perform_declare_of_internal
      (m := { m with symbols := m.symbols ++ [s] }) hm hs rfl (.ofCode code)
    have hupdate := updateSymbol_append_new (s := s) hn fun s => { s with binding := .ofCode code }
    dsimp only [s] at hdeclare hupdate
    rw [hupdate] at hdeclare
    rw [makes_discard]
    simp only [makes_lift, hdeclare]
    simp [eq_comm]
  · next hcode =>
    have hzero : code = 0 := not_not.mp hcode
    subst hzero
    rw [makes_pure]
    simp [Binding.ofCode, eq_comm]

/-- A definition is read from an entry that makes sense, if it is the first of its name. Only in
executable files an entry may also be about a section. -/
theorem makes_addDefinition {e : SymbolEntry} (hm : m.finalized = false)
    (hx : h.isExecutable → e.isSectionStart = false) :
    (addDefinition h strings e).Makes m () m' ↔
      ∃ s, readSymbol h strings e = .ok s ∧ e.Proper ∧ m.symbol? s.name = none ∧
        m' = { m with symbols := m.symbols ++ [s] } := by
  -- Definition and declaration together add one symbol, whatever the binding in the entry is.
  have hdefine : ∀ n address, (do
      let fresh ← liftM (Module.tryDefine n (.ofCode e.kind) address .none)
      if !fresh then throw (.definedTwice n)
      if e.binding ≠ 0 then discard (liftM (Module.declare n (.ofCode e.binding))) :
        Build Unit).Makes m () m' ↔ m.symbol? n = none ∧ m' = { m with
      symbols := m.symbols ++ [⟨n, .ofCode e.kind, .ofCode e.binding, address, false, .none⟩] } := by
    intro n address
    rw [makes_bind]
    simp only [makes_lift, makes_unless]
    cases hn : m.symbol? n with
    | some s =>
      simp only [perform_tryDefine_of_some hn]
      simp
    | none =>
      simp only [perform_tryDefine_of_none hm hn]
      simp [← makes_declare hm hn]
  constructor
  · intro hrun
    obtain ⟨n, m₁, hname, hrun⟩ := makes_bind.mp hrun
    obtain ⟨hn, rfl⟩ := makes_check.mp hname
    split at hrun
    · next hstart =>
      have hobject : h.isExecutable = false :=
        Bool.eq_false_iff.mpr fun hexec => by simp [hx hexec] at hstart
      unfold addSectionStart at hrun
      simp only [hobject, Bool.not_false, if_true] at hrun
      exact absurd hrun makes_throw
    · next hplain =>
      obtain ⟨address, m₁, haddress, hrun⟩ := makes_bind.mp hrun
      obtain ⟨ha, rfl⟩ := makes_check.mp haddress
      obtain ⟨hkind, hrun⟩ := makes_unless.mp hrun
      obtain ⟨hbinding, hrun⟩ := makes_unless.mp hrun
      obtain ⟨hnew, rfl⟩ := (hdefine n address).mp hrun
      exact ⟨_, readSymbol_eq_ok.mpr ⟨n, address, hn, ha, rfl⟩,
        ⟨by simpa using hplain, UInt8.not_lt.mp hkind, UInt8.not_lt.mp hbinding⟩, hnew, rfl⟩
  · rintro ⟨s, hs, ⟨hplain, hkind, hbinding⟩, hnew, rfl⟩
    obtain ⟨n, address, hn, ha, rfl⟩ := readSymbol_eq_ok.mp hs
    refine makes_bind.mpr ⟨n, m, makes_check.mpr ⟨hn, rfl⟩, ?_⟩
    rw [if_neg (by simp [hplain])]
    refine makes_bind.mpr ⟨address, m, makes_check.mpr ⟨ha, rfl⟩, ?_⟩
    refine makes_unless.mpr ⟨UInt8.not_lt.mpr hkind, makes_unless.mpr ⟨UInt8.not_lt.mpr hbinding, ?_⟩⟩
    exact (hdefine n address).mpr ⟨hnew, rfl⟩

theorem makes_addDefinitions {entry : Symbol → SymbolEntry} {stored : Symbol → Symbol}
    {ss : List Symbol}
    (hread : ∀ s ∈ ss, readSymbol h strings (entry s) = .ok (stored s) ∧ (stored s).name = s.name)
    (hm : m.finalized = false)
    (hx : ∀ s ∈ ss, h.isExecutable → (entry s).isSectionStart = false) :
    ((ss.map entry).forM (addDefinition h strings)).Makes m () m' ↔
      (∀ s ∈ ss, (entry s).Proper) ∧ (ss.map Symbol.name).Nodup ∧
        (∀ s ∈ ss, m.symbol? s.name = none) ∧
        m' = { m with symbols := m.symbols ++ ss.map stored } := by
  induction ss generalizing m with
  | nil =>
    rw [List.map_nil, makes_forM_nil]
    simp [eq_comm]
  | cons s ss ih =>
    obtain ⟨⟨hs, hname⟩, hss⟩ := List.forall_mem_cons.mp hread
    obtain ⟨hplain, hplains⟩ := List.forall_mem_cons.mp hx
    -- The rest of the entries goes into a module that has one more symbol.
    have hnone : m.symbol? s.name = none → ∀ t : Symbol,
        ({ m with symbols := m.symbols ++ [stored s] } : Module).symbol? t.name = none ↔
          t.name ≠ s.name ∧ m.symbol? t.name = none := by
      intro hnew t
      rw [symbol?_append_new (by rw [hname, hnew]), hname]
      split <;> simp [*]
    have hrest := ih (m := { m with symbols := m.symbols ++ [stored s] }) hss hm hplains
    have hfresh : s.name ∉ ss.map Symbol.name ↔ ∀ t ∈ ss, t.name ≠ s.name := by simp
    rw [List.map_cons, makes_forM_cons]
    simp only [makes_addDefinition hm hplain, hs, Except.ok.injEq, List.forall_mem_cons, List.map_cons,
      List.nodup_cons, hfresh]
    constructor
    · rintro ⟨m₁, ⟨s', rfl, hproper, hnew, rfl⟩, hrun⟩
      rw [hname] at hnew
      obtain ⟨hproper', hnodup, hnew', rfl⟩ := hrest.mp hrun
      refine ⟨⟨hproper, hproper'⟩, ⟨fun t ht => ((hnone hnew t).mp (hnew' t ht)).1, hnodup⟩,
        ⟨hnew, fun t ht => ((hnone hnew t).mp (hnew' t ht)).2⟩, by simp⟩
    · rintro ⟨⟨hproper, hproper'⟩, ⟨hne, hnodup⟩, ⟨hnew, hnew'⟩, rfl⟩
      refine ⟨_, ⟨stored s, rfl, hproper, by rw [hname, hnew], rfl⟩, ?_⟩
      refine hrest.mpr ⟨hproper', hnodup, fun t ht => ?_, by simp⟩
      exact (hnone hnew t).mpr ⟨hne t ht, hnew' t ht⟩

end Definitions

theorem unmarshal_eq_ok {name : String} {data : List UInt8} {f : File} :
    unmarshal name data = .ok (.ok f) ↔ ∃ h rest p m, readHeader data = .ok (h, rest) ∧
      readParts h rest = .ok p ∧ (addParts h p).Makes { name, order := h.order } () m ∧
      f = ⟨h, m.finalize, p.definitions⟩ := by
  unfold unmarshal
  cases hheader : readHeader data with
  | error e => simp [bind, Except.bind]
  | ok x =>
    obtain ⟨h, rest⟩ := x
    cases hparts : readParts h rest with
    | error e => simp [bind, Except.bind, hparts]
    | ok p =>
      simp only [bind, Except.bind, pure, Except.pure, hparts, Makes]
      rcases hrun : Module.perform _ (addParts h p).run with e | ⟨e | u, m⟩
      · simp [hparts, hrun]
      · simp [hparts, hrun]
      · simp [hparts, hrun, eq_comm]

end MipsToolchain.ObjectFile
