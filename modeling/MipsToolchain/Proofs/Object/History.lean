import MipsToolchain.Proofs.Object.Operations

namespace MipsToolchain

open Relation

/-- What a symbol keeps: its definition once it has one, and its visibility once others see it. -/
structure Symbol.Becomes (s s' : Symbol) : Prop where
  defined : s.isDefined → s'.address = s.address ∧ s'.type = s.type ∧ s'.origin = s.origin
  exported : s.isExported → s'.isExported

namespace Symbol.Becomes

variable {s s' s'' : Symbol}

theorem refl (s : Symbol) : s.Becomes s := ⟨fun _ => ⟨rfl, rfl, rfl⟩, id⟩

theorem trans (h : s.Becomes s') (h' : s'.Becomes s'') : s.Becomes s'' := by
  refine ⟨fun hs => ?_, fun hs => h'.exported (h.exported hs)⟩
  obtain ⟨ha, ht, ho⟩ := h.defined hs
  obtain ⟨ha', ht', ho'⟩ := h'.defined (by rwa [isDefined, ha])
  exact ⟨ha'.trans ha, ht'.trans ht, ho'.trans ho⟩

end Symbol.Becomes

namespace Module

abbrev Places := Name → Nat → Prop

/-- The changes that all operations on modules are made of. Of the bytes that are there, only those
at the given places are changed. -/
inductive Change (places : Places) (m : Module) : Module → Prop
  | newSection (s : Section) : m.section? s.name = none →
      Change places m { m with sections := m.sections ++ [s] }
  | extend (n : Name) (bytes : ByteArray) : Change places m (m.updateSection n (·.append bytes))
  | raise (n : Name) (boundary : Nat) : Change places m
      (m.updateSection n fun s => { s with alignment := max s.alignment boundary })
  | newSymbol (s : Symbol) : m.symbol? s.name = none →
      Change places m { m with symbols := m.symbols ++ [s] }
  | define (s : Symbol) (type : SymbolType) (address : Address) (origin : Source.Location) :
      m.symbol? s.name = some s → s.isDefined = false → Change places m (m.updateSymbol s.name
        fun s => { s with type := type, address := some address, origin := origin })
  | declare (n : Name) (binding : Binding) :
      (∀ s, m.symbol? n = some s → s.isExported → binding ≠ .internal) →
      Change places m (m.updateSymbol n ({ · with binding := binding }))
  | refer (r : Reference) : m.isSectionName r.symbol ∨ (m.symbol? r.symbol).isSome →
      Change places m { m with references := m.references ++ [r] }
  | overwrite (s : Section) (k : Nat) (w : UInt32) : m.section? s.name = some s →
      k + 4 ≤ s.length → (∀ j, k ≤ j → j < k + 4 → places s.name j) →
      Change places m (m.updateSection s.name (putBytes · k (m.order.wordBytes w)))
  | finalize : Change places m m.finalize
  | markFailed : Change places m m.markFailed

section Invariants

/-- What is in order about the names in a module: each section and each symbol has its own, and
references are about some of them. -/
structure Consistent (m : Module) : Prop where
  sections : (m.sections.map Section.name).Nodup
  symbols : ∀ n, m.symbolNames.count n = if (m.symbol? n).isSome then 1 else 0
  references : ∀ r ∈ m.references, (m.symbol? r.symbol).isSome ∨ m.isSectionName r.symbol

theorem consistent_of_wellFormed {m : Module} (hs : m.DistinctSections) (h : m.WellFormed) :
    m.Consistent := by
  refine ⟨hs, fun n => ?_, fun r hr => ?_⟩
  · rw [List.Nodup.count h.distinct]
    simp only [symbol?_isSome_iff]
  · exact (h.known r hr).symm.imp_left symbol?_isSome_iff.mpr

variable {places : Places} {m m' : Module}

theorem Change.distinctSections (h : Change places m m') (hm : m.DistinctSections) :
    m'.DistinctSections := by
  cases h with
  | newSection s hs => exact nodup_append_new hm hs
  | extend n bytes => exact hm.updateSection n fun _ => rfl
  | raise n boundary => exact hm.updateSection n fun _ => rfl
  | overwrite s k w => exact hm.updateSection s.name fun _ => rfl
  | newSymbol | define | declare | refer | finalize | markFailed => exact hm

theorem Change.wellFormed (h : Change places m m') (hm : m.WellFormed) : m'.WellFormed := by
  cases h with
  | newSection s hs =>
    refine hm.mono rfl rfl fun n hn => ?_
    unfold isSectionName at hn ⊢
    rw [section?_append_new hs]
    split
    · rfl
    · exact hn
  | extend n bytes => exact hm.updateSection n fun _ => rfl
  | raise n boundary => exact hm.updateSection n fun _ => rfl
  | newSymbol s hs => exact hm.addSymbol hs
  | define s => exact hm.updateSymbol s.name fun _ => rfl
  | declare n => exact hm.updateSymbol n fun _ => rfl
  | refer r hr =>
    refine ⟨hm.distinct, fun q hq => ?_⟩
    rcases List.mem_append.mp hq with hq | hq
    · exact hm.known q hq
    · rw [List.mem_singleton.mp hq]
      exact hr.imp_right symbol?_isSome_iff.mp
  | overwrite s k w => exact hm.updateSection s.name fun _ => rfl
  | finalize | markFailed => exact ⟨hm.distinct, hm.known⟩

end Invariants

/-- What a module keeps of an earlier state. Bytes may differ at the given places only. -/
structure Extends (places : Places) (m m' : Module) : Prop where
  sections : m.sections.map Section.name <+: m'.sections.map Section.name
  names : m.symbolNames <+: m'.symbolNames
  symbols : ∀ n s, m.symbol? n = some s → ∃ s', m'.symbol? n = some s' ∧ s.Becomes s'
  references : m.references <+: m'.references
  lengths : ∀ n, m.offset n ≤ m'.offset n
  bytes : ∀ n k, k < m.offset n → m'.byte? n k = m.byte? n k ∨ places n k

namespace Extends

variable {places : Places} {m m' m'' : Module}

theorem refl (places : Places) (m : Module) : Extends places m m where
  sections := List.prefix_rfl
  names := List.prefix_rfl
  symbols _ s hs := ⟨s, hs, .refl s⟩
  references := List.prefix_rfl
  lengths _ := Nat.le_refl _
  bytes _ _ _ := .inl rfl

theorem trans (h : Extends places m m') (h' : Extends places m' m'') :
    Extends places m m'' where
  sections := h.sections.trans h'.sections
  names := h.names.trans h'.names
  symbols n s hs := by
    obtain ⟨s', hs', hkeeps⟩ := h.symbols n s hs
    obtain ⟨s'', hs'', hkeeps'⟩ := h'.symbols n s' hs'
    exact ⟨s'', hs'', hkeeps.trans hkeeps'⟩
  references := h.references.trans h'.references
  lengths n := (h.lengths n).trans (h'.lengths n)
  bytes n k hk := by
    rcases h.bytes n k hk with hb | hb
    · rcases h'.bytes n k (hk.trans_le (h.lengths n)) with hb' | hb'
      · exact .inl (hb'.trans hb)
      · exact .inr hb'
    · exact .inr hb

theorem of_updateSymbol {n : Name} {f : Symbol → Symbol} (hname : ∀ s, (f s).name = s.name)
    (hf : ∀ s, m.symbol? n = some s → s.Becomes (f s)) :
    Extends places m (m.updateSymbol n f) where
  sections := List.prefix_rfl
  names := (symbolNames_updateSymbol f hname).symm ▸ List.prefix_rfl
  symbols n' s hs := by
    rw [symbol?_updateSymbol f hname]
    split
    · next h =>
      subst h
      exact ⟨f s, by rw [hs]; rfl, hf s hs⟩
    · exact ⟨s, hs, .refl s⟩
  references := List.prefix_rfl
  lengths _ := Nat.le_refl _
  bytes _ _ _ := .inl rfl

theorem of_updateSection {n : Name} {f : Section → Section} (hname : ∀ s, (f s).name = s.name)
    (hlength : ∀ s, m.section? n = some s → s.length ≤ (f s).length)
    (hbytes : ∀ s, m.section? n = some s → ∀ k < s.length,
      (f s).contents[k]? = s.contents[k]? ∨ places n k) :
    Extends places m (m.updateSection n f) where
  sections := by
    have hnames := map_key_update Section.name n f (fun s hs => (hname s).trans hs) m.sections
    exact (congrArg (_ <+: ·) hnames).mpr List.prefix_rfl
  names := List.prefix_rfl
  symbols _ s hs := ⟨s, hs, .refl s⟩
  references := List.prefix_rfl
  lengths n' := by
    unfold offset
    rw [section?_updateSection m n n' f hname]
    split
    · next h =>
      subst h
      cases hs : m.section? n' with
      | none => exact Nat.le_refl _
      | some s => exact hlength s hs
    · exact Nat.le_refl _
  bytes n' k hk := by
    unfold byte?
    rw [section?_updateSection m n n' f hname]
    split
    · next h =>
      subst h
      cases hs : m.section? n' with
      | none => exact .inl rfl
      | some s =>
        rw [offset_of_section? hs] at hk
        exact hbytes s hs k hk
    · exact .inl rfl

theorem of_change (h : Change places m m') : Extends places m m' := by
  -- What is new comes at the end, so that everything that was there is found as before.
  cases h with
  | newSection s hs =>
    have hsection := section?_append_new hs
    refine { refl places m with sections := ?_, lengths := fun n => ?_, bytes := fun n k hk => ?_ }
    · rw [List.map_append]
      exact List.prefix_append _ _
    · unfold offset
      rw [hsection]
      split
      · next h => simp [h, hs]
      · exact Nat.le_refl _
    · unfold byte?
      rw [hsection]
      split
      · next h =>
        subst h
        simp [offset, hs] at hk
      · exact .inl rfl
  | extend n bytes =>
    refine of_updateSection (fun _ => rfl) (fun s _ => ?_) fun s _ k hk => .inl ?_
    · rw [Section.length_append]
      exact Nat.le_add_right _ _
    · rw [Section.contents_append]
      exact List.getElem?_append_left hk
  | raise n boundary =>
    exact of_updateSection (fun _ => rfl) (fun _ _ => Nat.le_refl _) fun _ _ _ _ => .inl rfl
  | newSymbol s hs =>
    refine { refl places m with names := ?_, symbols := fun n t ht => ⟨t, ?_, .refl t⟩ }
    · rw [symbolNames, symbolNames, List.map_append]
      exact List.prefix_append _ _
    · rw [symbol?_append_new hs, if_neg]
      · exact ht
      · rintro rfl
        cases hs.symm.trans ht
  | define s type address origin hs hundefined =>
    refine of_updateSymbol (fun _ => rfl) fun t ht => ?_
    obtain rfl : s = t := Option.some.inj (hs.symm.trans ht)
    exact ⟨fun hd => absurd hd (by simp [hundefined]), id⟩
  | declare n binding hb =>
    exact of_updateSymbol (fun _ => rfl) fun s hs =>
      ⟨fun _ => ⟨rfl, rfl, rfl⟩, fun hx => by simpa [Symbol.isExported] using hb s hs hx⟩
  | refer r => exact { refl places m with references := List.prefix_append _ _ }
  | overwrite s k w hs hk hplaces =>
    have hlen := ByteOrder.length_wordBytes m.order w
    refine of_updateSection (fun _ => rfl) (fun t _ => ?_) fun t ht j _ => ?_
    · exact (length_putBytes t k _).ge
    · obtain rfl : s = t := Option.some.inj (hs.symm.trans ht)
      rw [contents_putBytes s k _ (by omega), hlen]
      split
      · next hj => exact .inr (hplaces j hj.1 hj.2)
      · exact .inl rfl
  | finalize | markFailed => exact { refl places m with }

theorem of_changes (h : ReflTransGen (Change places) m m') : Extends places m m' := by
  induction h with
  | refl => exact refl places m
  | tail _ h ih => exact ih.trans (of_change h)

end Extends

inductive Operation where
  | addSection (n : Name) (flags : SectionFlags)
  | append (n : Name) (bytes : ByteArray)
  | appendWord (n : Name) (w : UInt32)
  | reserve (n : Name) (count : Int)
  | align (n : Name) (boundary : Nat)
  | tryDefine (n : Name) (type : SymbolType) (address : Option Address) (origin : Source.Location)
  | define (n : Name) (type : SymbolType) (address : Address) (origin : Source.Location)
  | declare (n : Name) (binding : Binding)
  | track (r : Reference)
  | writeWord (loc : Address) (w : UInt32)
  | relocate (r : Reference) (delta : Int64)
  | finalize
  | markFailed

/-- The module after a step, also after one that faults. -/
def after {α : Type} (m : Module) (e : Edit α) : Module := (e.run.run m).2

def patched {ε : Type} (m : Module) (x : ExceptT ε (Except Fault) Module) : Module :=
  match x.run with
  | .ok (.ok m') => m'
  | .ok (.error _) => m
  | .error _ => m

namespace Operation

def apply (op : Operation) (m : Module) : Module :=
  match op with
  | addSection n flags => m.after (Module.addSection n flags)
  | append n bytes => m.after (Module.append n bytes)
  | appendWord n w => m.after (Module.appendWord n w)
  | reserve n count => m.after (Module.reserve n count)
  | align n boundary => m.after (Module.align n boundary)
  | tryDefine n type address origin => m.after (Module.tryDefine n type address origin)
  | define n type address origin => m.after (Module.define n type address origin)
  | declare n binding => m.after (Module.declare n binding)
  | track r => m.after (Module.track r)
  | writeWord loc w => m.patched (m.writeWord loc w)
  | relocate r delta => m.patched (m.relocate r delta)
  | finalize => m.finalize
  | markFailed => m.markFailed

def Overwrites (op : Operation) (n : Name) (k : Nat) : Prop :=
  match op with
  | writeWord loc _ => loc.sectionName = n ∧ loc.offset ≤ k ∧ k < loc.offset + 4
  | relocate r _ => r.Covers n k
  | _ => False

def run (ops : List Operation) (m : Module) : Module := ops.foldl (fun m op => op.apply m) m

end Operation

section Steps

variable {α β : Type} {places : Places} {m m' : Module}

/-- A step that, however it ends, has only made changes that modules allow. -/
def Leads (places : Places) (m : Module) (e : Edit α) : Prop :=
  ReflTransGen (Change places) m (m.after e)

theorem after_eq {e : Edit α} {a : α} (h : m.perform e = .ok (a, m')) : m.after e = m' := by
  unfold perform at h
  unfold after
  split at h
  · next heq =>
    rw [heq]
    exact congrArg Prod.snd (Except.ok.inj h)
  · cases h

theorem after_bind (x : Edit α) (f : α → Edit β) :
    m.after (x >>= f) = match m.perform x with
      | .ok (a, m') => m'.after (f a)
      | .error _ => m.after x := by
  unfold after perform
  rw [ExceptT.run_bind, StateT.run_bind]
  rcases x.run.run m with ⟨a | e, m'⟩ <;> rfl

namespace Leads

theorem pure (a : α) : Leads places m (Pure.pure a) := .refl

theorem modify {f : Module → Module} (h : Change places m (f m)) :
    Leads places m (modify f : Edit PUnit) := .single h

theorem bind {x : Edit α} {f : α → Edit β} (hx : Leads places m x)
    (hf : ∀ a m', m.perform x = .ok (a, m') → Leads places m' (f a)) :
    Leads places m (x >>= f) := by
  unfold Leads
  rw [after_bind]
  cases hp : m.perform x with
  | error e => exact hx
  | ok r =>
    obtain ⟨a, m'⟩ := r
    have hm' : ReflTransGen (Change places) m m' := after_eq hp ▸ hx
    exact hm'.trans (hf a m' hp)

theorem get {f : Module → Edit β} (hf : Leads places m (f m)) :
    Leads places m (MonadState.get >>= f) :=
  bind .refl fun _ _ h => by
    cases h
    exact hf

theorem mutable {e : Edit β} (he : Leads places m e) :
    Leads places m (checkMutable >>= fun _ => e) := by
  refine bind ?_ fun _ m' h => ?_
  · exact get (by split; exacts [.refl, .refl])
  · rw [perform_checkMutable] at h
    split at h
    · cases h
    · cases h
      exact he

theorem addSection (n : Name) (flags : SectionFlags) :
    Leads places m (Module.addSection n flags) := by
  refine get ?_
  split
  · exact .pure _
  · next hs =>
    exact mutable (bind (.modify (.newSection ⟨n, flags, 0, 0, .empty⟩ hs)) fun _ _ _ => .pure _)

theorem append (n : Name) (bytes : ByteArray) : Leads places m (Module.append n bytes) :=
  mutable (bind (addSection n _) fun _ _ _ =>
    bind (.modify (.extend n bytes)) fun _ _ _ => .pure _)

theorem appendWord (n : Name) (w : UInt32) : Leads places m (Module.appendWord n w) :=
  get (append n _)

theorem reserve (n : Name) (count : Int) : Leads places m (Module.reserve n count) := by
  rw [Module.reserve]
  dsimp only
  split
  · exact .refl
  · split
    · exact .refl
    · exact append n _

/-- A section that is there is marked with its alignment before it is filled, which can fault. -/
theorem align (n : Name) (boundary : Nat) : Leads places m (Module.align n boundary) := by
  unfold Module.align
  split
  · exact .refl
  · refine bind (addSection n _) fun s _ _ => bind (.modify (.raise n boundary)) fun _ _ _ => ?_
    dsimp only
    split
    · exact bind (reserve n _) fun _ _ _ => .pure _
    · exact .pure _

theorem tryDefine (n : Name) (type : SymbolType) (address : Option Address)
    (origin : Source.Location) : Leads places m (Module.tryDefine n type address origin) := by
  refine get ?_
  split
  · exact .pure _
  · next hnone =>
    refine mutable (bind (.modify ?_) fun _ _ _ => .pure _)
    exact .newSymbol ⟨n, type, .internal, address, false, origin⟩ (by simpa using hnone)

theorem define (n : Name) (type : SymbolType) (address : Address) (origin : Source.Location) :
    Leads places m (Module.define n type address origin) := by
  refine get ?_
  split
  · exact tryDefine n type _ origin
  · next s hs =>
    split
    · exact .pure _
    · next hundefined =>
      obtain rfl : s.name = n := by simpa using List.find?_some hs
      refine mutable (bind (.modify ?_) fun _ _ _ => .pure _)
      exact .define s type address origin hs (by simpa using hundefined)

theorem declare (n : Name) (binding : Binding) : Leads places m (Module.declare n binding) := by
  refine mutable (get ?_)
  split
  · next hnone =>
    refine bind (.modify (.newSymbol (.mention n) hnone)) fun _ m' h => ?_
    cases h
    refine bind (.modify (.declare n binding fun s hs hx => ?_)) fun _ _ _ => .pure _
    rw [symbol?_append_new (s := .mention n) hnone] at hs
    cases (if_pos rfl).symm.trans hs
    cases hx
  · next s hs =>
    split
    · exact .pure _
    · next hkept =>
      refine bind (.modify (.declare n binding fun t ht hx => ?_)) fun _ _ _ => .pure _
      obtain rfl : s = t := Option.some.inj (hs.symm.trans ht)
      simpa [hx] using hkept

theorem track (r : Reference) : Leads places m (Module.track r) := by
  refine mutable (get ?_)
  dsimp only
  split
  · next hnew =>
    have hnone : m.symbol? r.symbol = none := by simpa using (Bool.and_eq_true_iff.mp hnew).1
    refine bind (.modify (.newSymbol (.mention r.symbol) hnone)) fun _ m' h => ?_
    cases h
    refine .modify (.refer r (.inr ?_))
    exact (congrArg Option.isSome ((symbol?_append_new (s := .mention r.symbol) hnone _).trans
      (if_pos rfl))).trans rfl
  · next hold =>
    refine .modify (.refer r ?_)
    cases hs : m.symbol? r.symbol with
    | none => simpa [hs] using hold
    | some s => exact .inr rfl

end Leads

end Steps

section Runs

variable {places : Places} {m m' : Module}

theorem changes_patched {ε : Type} {x : ExceptT ε (Except Fault) Module}
    (h : ∀ m', x.run = .ok (.ok m') → Change places m m') :
    ReflTransGen (Change places) m (m.patched x) := by
  unfold patched
  split
  · next m' hx => exact .single (h m' hx)
  · exact .refl
  · exact .refl

theorem Change.mono {places' : Places} (h : ∀ n k, places n k → places' n k)
    (hc : Change places m m') : Change places' m m' := by
  cases hc with
  | newSection s hs => exact .newSection s hs
  | extend n bytes => exact .extend n bytes
  | raise n boundary => exact .raise n boundary
  | newSymbol s hs => exact .newSymbol s hs
  | define s type address origin hs hd => exact .define s type address origin hs hd
  | declare n binding hb => exact .declare n binding hb
  | refer r hr => exact .refer r hr
  | overwrite s k w hs hk hp => exact .overwrite s k w hs hk fun j hj hj' => h _ j (hp j hj hj')
  | finalize => exact .finalize
  | markFailed => exact .markFailed

theorem changes_mono {places' : Places} (h : ∀ n k, places n k → places' n k)
    (hc : ReflTransGen (Change places) m m') : ReflTransGen (Change places') m m' :=
  ReflTransGen.mono (fun _ _ => Change.mono h) _ _ hc

/-- Whatever a call is given and however it ends, it makes changes that modules allow. -/
theorem Operation.changes (op : Operation) (m : Module) :
    ReflTransGen (Change op.Overwrites) m (op.apply m) := by
  cases op with
  | addSection n flags => exact Leads.addSection n flags
  | append n bytes => exact Leads.append n bytes
  | appendWord n w => exact Leads.appendWord n w
  | reserve n count => exact Leads.reserve n count
  | align n boundary => exact Leads.align n boundary
  | tryDefine n type address origin => exact Leads.tryDefine n type address origin
  | define n type address origin => exact Leads.define n type address origin
  | declare n binding => exact Leads.declare n binding
  | track r => exact Leads.track r
  | writeWord loc w =>
    refine changes_patched fun m' h => ?_
    obtain ⟨s, hs, hk, rfl⟩ := writeWord_eq_ok h
    obtain hname : s.name = loc.sectionName := by simpa using List.find?_some hs
    rw [← hname] at hs ⊢
    exact .overwrite s _ w hs hk fun j hj hj' => ⟨hname.symm, hj, hj'⟩
  | relocate r delta =>
    refine changes_patched fun m' h => ?_
    obtain ⟨s, w, w', hs, hk, -, -, rfl⟩ := relocate_eq_ok h
    obtain hname : s.name = r.location.sectionName := by simpa using List.find?_some hs
    rw [← hname] at hs ⊢
    exact .overwrite s _ w' hs hk fun j hj hj' => ⟨hname.symm, hj, hj'⟩
  | finalize => exact .single .finalize
  | markFailed => exact .single .markFailed

theorem Operation.changes_run (ops : List Operation) (m : Module) :
    ReflTransGen (Change fun n k => ∃ op ∈ ops, op.Overwrites n k) m (run ops m) := by
  induction ops generalizing m with
  | nil => exact .refl
  | cons op ops ih =>
    refine (changes_mono (fun n k h => ?_) (op.changes m)).trans
      (changes_mono (fun n k h => ?_) (ih (op.apply m)))
    · exact ⟨op, by simp, h⟩
    · obtain ⟨o, ho, hn⟩ := h
      exact ⟨o, List.mem_cons_of_mem op ho, hn⟩

theorem consistent_of_changes (h : ReflTransGen (Change places) m m') (hd : m.DistinctSections)
    (hw : m.WellFormed) : m'.Consistent := by
  have hboth : m'.DistinctSections ∧ m'.WellFormed := by
    induction h with
    | refl => exact ⟨hd, hw⟩
    | tail _ h ih => exact ⟨h.distinctSections ih.1, h.wellFormed ih.2⟩
  exact consistent_of_wellFormed hboth.1 hboth.2

/-- Any calls on a new module, also calls that fail, leave it in order, and any further calls only
add to it. -/
theorem Operation.history_monotone (name : String) (order : ByteOrder)
    (before later : List Operation) :
    (run before { name, order }).Consistent ∧
      Extends (fun n k => ∃ op ∈ later, op.Overwrites n k) (run before { name, order })
        (run later (run before { name, order })) := by
  have hnew : ({ name, order } : Module).WellFormed := (Built.new name order).wellFormed
  exact ⟨consistent_of_changes (changes_run before _) .nil hnew,
    .of_changes (changes_run later _)⟩

end Runs

end Module

end MipsToolchain
