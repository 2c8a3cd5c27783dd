import MipsToolchain.Proofs.Assembly.Moves
import MipsToolchain.Proofs.Link.Exports
import MipsToolchain.Proofs.Link.Arrangement
import MipsToolchain.Proofs.Link.Filling

namespace MipsToolchain

open Diagnostic Guarded MipsToolchain.Module

namespace Layout

open OutputSection

theorem four_dvd_alignUp (n : Nat) {boundary : Nat} (h : 2 ≤ boundary) : 4 ∣ alignUp n boundary :=
  (Nat.pow_dvd_pow 2 h).trans (dvd_alignUp n boundary)

theorem four_dvd_address {text data : Nat} {ss : List OutputSection} {out : OutputSection}
    (h : out ∈ place text data ss) : 4 ∣ out.address :=
  (blockSize_dvd (Nat.le_max_right out.alignment 2)).trans (mem_place h).1

theorem four_dvd_contribution {n : Name} {ms : List Module} {i start cursor : Nat} {m : Module}
    (hm : ms[i]? = some m) {s : Section} (hs : m.section? n = some s) (ha : 2 ≤ s.alignment)
    (hstart : (contributions n cursor ms).1[i]? = some start) : 4 ∣ start := by
  have halign : m.alignmentOf n = s.alignment := by simp [Module.alignmentOf, hs]
  rw [getElem?_contributions, hm, Option.map_some, halign, Option.some.injEq] at hstart
  exact hstart ▸ four_dvd_alignUp _ ha

theorem standard_mem_sectionNames {n : Name} (h : n ∈ StandardSection.names) (ms : List Module) :
    n ∈ sectionNames ms :=
  (nodup_addNames _ _ (by decide)).2 n (.inl h)

theorem isEmpty_standard {n : Name} (h : n ∈ StandardSection.names) : n.isEmpty = false := by
  have hall : ∀ n ∈ StandardSection.names, n.isEmpty = false := by decide
  exact hall n h

theorem ofNat_mod_four {n : Nat} (h : 4 ∣ n) : Int64.ofNat n % 4 = 0 := by
  have hmod := Isa.toInt_ofNat_mod n
  rw [Isa.mod_four_eq_zero_iff]
  omega

/-- Addresses in a standard section count from where the module has its part of it, which is at a
multiple of four if the section is aligned so. -/
theorem resolve_standard (l : LinkSettings) {ms : List Module} {i : Nat} {m : Module}
    (hm : ms[i]? = some m) {n : Name} (hn : n ∈ StandardSection.names) :
    ∃ base, (∀ k, (ofModules l ms).resolve i (.relative n k) = .ok (base + k)) ∧
      ((∃ s, m.section? n = some s ∧ 2 ≤ s.alignment) → base % 4 = 0) := by
  obtain ⟨out, hmem, rfl, hout⟩ := section?_ofModules l (standard_mem_sectionNames hn ms)
  have hi : i < out.offsets.length := by
    rw [length_offsets hmem]
    exact (List.getElem?_eq_some_iff.mp hm).1
  obtain ⟨start, hstart⟩ : ∃ start, out.offsets[i]? = some start :=
    ⟨_, List.getElem?_eq_getElem hi⟩
  refine ⟨Int64.ofNat (out.address + start), fun k => ?_, fun ⟨s, hs, ha⟩ => ?_⟩
  · have hrel : (Address.relative out.name k).isRelocatable = true := by
      simp [Address.isRelocatable, Address.relative, isEmpty_standard hn]
    exact (resolve_eq_ok hrel).mpr ⟨out, start, hout, hstart, rfl⟩
  · rw [offsets_ofModules hmem] at hstart
    have hoffset := four_dvd_contribution hm hs ha hstart
    exact ofNat_mod_four (Nat.dvd_add (four_dvd_address hmem) hoffset)

end Layout

/-- A symbol of a module that has an address in a standard section and that no other module
replaces. -/
structure Module.HasLabel (m : Module) (n : Name) (a : Address) : Prop where
  named : n.isEmpty = false
  standard : a.sectionName ∈ StandardSection.names
  defined : ∃ s, m.symbol? n = some s ∧ s.address = some a ∧
    (s.binding = .internal ∨ s.binding = .global)

/-- What a name stands for in linking, if it is a label with the given address: a section of that
name comes first. -/
def Module.linkedAddress (m : Module) (n : Name) (a : Address) : Address :=
  if m.isSectionName n then .relative n 0 else a

namespace Slot

section Labels

variable {h : Slot} {s : Settings} {pre post : List Module}

theorem resolveReference_label {n : Name} {a : Address} (hl : h.module.HasLabel n a)
    (ha : ∀ m ∈ pre ++ h.module :: post, ∀ t ∈ m.symbols, t.binding.isAssigned) {gs : Globals}
    (hgs : h.GlobalsIn s pre post gs) {r : Reference} (hr : r.symbol = n) :
    resolveReference (Layout.ofModules s.link (pre ++ h.module :: post)) gs pre.length h.module r =
      ((Layout.ofModules s.link (pre ++ h.module :: post)).resolve pre.length
        (h.module.linkedAddress n a)).map some := by
  subst hr
  rw [resolveReference, linkedAddress]
  by_cases hsec : h.module.isSectionName r.symbol
  · rw [if_pos hsec, if_pos hsec]
  · rw [if_neg hsec, if_neg hsec]
    obtain ⟨t, ht, haddr, hb⟩ := hl.defined
    rw [ht]
    dsimp only
    rw [haddr]
    rcases hb with hb | hb
    · have hx : t.isExported = false := by simp [Symbol.isExported, hb]
      rw [hx]
    · have hx : t.isExported = true := by simp [Symbol.isExported, hb]
      have hname : t.name = r.symbol := by simpa using List.find?_some ht
      obtain ⟨res, hres, he, rfl⟩ := hgs
      have hm : (pre ++ h.module :: post)[pre.length]? = some h.module := by simp
      obtain ⟨g, hg, -, hresolve⟩ := Globals.ofModules_enters ha hm
        (List.mem_of_find?_eq_some ht) haddr hb res hres he
      rw [hx, ← hname, hg, hresolve]
      rfl

/-- What becomes of the words for a value. A value that is refused has none. -/
def Comes (h : Slot) (l : Layout) (gs : Globals) (i : Nat) (ws : Option (List EncodedWord))
    (o : Option (List UInt32)) : Prop :=
  match ws with
  | some ws => h.Settles l gs i ws o
  | none => o = none

variable {l : Layout} {gs : Globals} {i : Nat} {n : Name} {a : Address} {k base : Int64}

theorem add_base (k base off : Int64) : k + (base + off) = off + k + base := by
  rw [Int64.add_comm base off, ← Int64.add_assoc, Int64.add_comm k off]

theorem sub_place (base off place : Int64) :
    base + off - (base + place + 4) = off + 0 - (place + 4) := by
  grind

/-- A jump that is refused where the label is known is refused by linking where it is not. -/
theorem comes_jump (hc : h.count = 1) (w : UInt32)
    (hS : ∀ r, r.symbol = a.sectionName → resolveReference l gs i h.module r = .ok (some base))
    (hL : ∀ r, r.symbol = n → resolveReference l gs i h.module r = .ok (some (base + a.value)))
    (hk : k % 4 = 0) (hbase : base % 4 = 0) :
    ∃ o, h.Comes l gs i ((WordForm.jump w).words h.location (.settled a k)) o ∧
      h.Comes l gs i ((WordForm.jump w).words h.location (.deferred h.location n k)) o := by
  have hsettled : (WordForm.jump w).words h.location (.settled a k) =
      if (a.value + k) % 4 = 0 then some [.waiting .jump26 w h.location a.sectionName (a.value + k)]
      else none := rfl
  have hdeferred : (WordForm.jump w).words h.location (.deferred h.location n k) =
      some [.waiting .jump26 w h.location n k] := if_pos hk
  have hmod : (a.value + k) % 4 = 0 ↔ (base + a.value) % 4 = 0 := by
    rw [Isa.mod_four_add_iff hk, Int64.add_comm, Isa.mod_four_add_iff hbase]
  have hjump := settles_jump hc hk hL w
  rw [hsettled, hdeferred]
  by_cases ha : (a.value + k) % 4 = 0
  · have hdirect := settles_jump hc ha hS w
    rw [if_pos hbase] at hdirect
    rw [if_pos (hmod.mp ha), add_base] at hjump
    rw [if_pos ha]
    exact ⟨some _, hdirect, hjump⟩
  · rw [if_neg (mt hmod.mpr ha)] at hjump
    rw [if_neg ha]
    exact ⟨none, rfl, hjump⟩

theorem comes_branch {front : List UInt32} (hc : h.count = front.length + 1) (w : UInt32)
    (hb : ∀ k, l.resolve i (.relative a.sectionName k) = .ok (base + k))
    (hL : ∀ r, r.symbol = n → resolveReference l gs i h.module r = .ok (some (base + a.value)))
    (hname : a.sectionName = h.name) :
    ∃ o, h.Comes l gs i ((WordForm.branch front w).words h.location (.settled a 0)) o ∧
      h.Comes l gs i ((WordForm.branch front w).words h.location (.deferred h.location n 0)) o := by
  let place := h.location.add (Int64.ofNat (4 * front.length))
  have hplace : l.resolve i place = .ok (base + place.value) := by
    rw [← hb place.value, hname]
    rfl
  have hbranch := settles_branch hc hL hplace w
  rw [sub_place] at hbranch
  have hdeferred : (WordForm.branch front w).words h.location (.deferred h.location n 0) =
      some (front.map (⟨·, none⟩) ++ [.waiting .pcrel16 w place n 0]) := by
    simp [WordForm.words, ExprValue.deferred, ExprValue.number, ExprValue.target, Address.absolute,
      place]
  -- The distance is known to the encoder, which looks at the section and not at the label.
  let distance := a.value + 0 - (place.value + 4)
  have hsettled : (WordForm.branch front w).words h.location (.settled a 0) =
      if distance % 4 = 0 ∧ Isa.fitsSigned (distance >>> 2) 16 then
        some ((front ++ [RelocationKind.pcrel16.store w distance]).map (⟨·, none⟩))
      else none := by
    have hown : ((ExprValue.settled a 0).reference.isNone &&
        (ExprValue.settled a 0).address.sectionName == h.location.sectionName) = true := by
      simp [ExprValue.settled, Address.add, location, Address.inSection, Address.relative, hname]
    rw [WordForm.words, if_pos hown, apply_ite (Option.map _), List.map_append]
    rfl
  rw [hdeferred, hsettled]
  by_cases hfits : distance % 4 = 0 ∧ Isa.fitsSigned (distance >>> 2) 16
  · rw [if_pos hfits] at hbranch ⊢
    exact ⟨some _, settles_plain (by simp [hc]), hbranch⟩
  · rw [if_neg hfits] at hbranch ⊢
    exact ⟨none, rfl, hbranch⟩

theorem comes_alike {form : WordForm} (hc : form.count = h.count) {arg : Option Isa.Argument}
    (hsuits : form.Suits arg)
    (hb : ∀ k, l.resolve i (.relative a.sectionName k) = .ok (base + k))
    (hS : ∀ r, r.symbol = a.sectionName → resolveReference l gs i h.module r = .ok (some base))
    (hL : ∀ r, r.symbol = n → resolveReference l gs i h.module r = .ok (some (base + a.value)))
    (hjump : arg = some .target → k % 4 = 0 ∧ base % 4 = 0)
    (hbranch : arg = some .branch → k = 0 ∧ a.sectionName = h.name) :
    ∃ o, h.Comes l gs i (form.words h.location (.settled a k)) o ∧
      h.Comes l gs i (form.words h.location (.deferred h.location n k)) o := by
  cases form with
  | shift => exact ⟨none, rfl, rfl⟩
  | single kind w =>
    have hdirect := settles_single (k := a.value + k) hc.symm (WordForm.kind_of_suits hsuits) hS w
    have hlate := settles_single (k := k) hc.symm (WordForm.kind_of_suits hsuits) hL w
    rw [add_base] at hlate
    exact ⟨some _, hdirect, hlate⟩
  | split upper lower =>
    have hdirect := settles_split (k := a.value + k) hc.symm hS upper lower
    have hlate := settles_split (k := k) hc.symm hL upper lower
    rw [add_base] at hlate
    exact ⟨some _, hdirect, hlate⟩
  | jump w =>
    obtain ⟨hk, hbase⟩ := hjump hsuits
    exact comes_jump hc.symm w hS hL hk hbase
  | branch front w =>
    obtain ⟨rfl, hname⟩ := hbranch hsuits
    exact comes_branch hc.symm w hb hL hname

theorem comes_label
    (hassigned : ∀ m ∈ pre ++ h.module :: post, ∀ t ∈ m.symbols, t.binding.isAssigned)
    (hlabel : h.module.HasLabel n a)
    (hown : (h.module.linkedAddress n a).sectionName = a.sectionName)
    {form : WordForm} (hc : form.count = h.count) {arg : Option Isa.Argument}
    (hsuits : form.Suits arg)
    (hjump : arg = some .target → k % 4 = 0 ∧
      ∃ t, h.module.section? a.sectionName = some t ∧ 2 ≤ t.alignment)
    (hbranch : arg = some .branch → k = 0 ∧ a.sectionName = h.name)
    (hgs : h.GlobalsIn s pre post gs) :
    ∃ o, h.Comes (Layout.ofModules s.link (pre ++ h.module :: post)) gs pre.length
        (form.words h.location (.settled (h.module.linkedAddress n a) k)) o ∧
      h.Comes (Layout.ofModules s.link (pre ++ h.module :: post)) gs pre.length
        (form.words h.location (.deferred h.location n k)) o := by
  have hmodule : (pre ++ h.module :: post)[pre.length]? = some h.module := by simp
  obtain ⟨base, hbase, haligned⟩ := Layout.resolve_standard s.link hmodule hlabel.standard
  rw [← hown] at hbase
  refine comes_alike hc hsuits hbase (fun r hr => ?_) (fun r hr => ?_) (fun ht => ?_) fun hb => ?_
  · have hname : h.module.isSectionName r.symbol = true := by
      simp [isSectionName, hr, hown, hlabel.standard]
    rw [resolveReference, if_pos hname, hr, hbase, Int64.add_zero]
    rfl
  · rw [resolveReference_label hlabel hassigned hgs hr]
    exact congrArg (Except.map some) (hbase (h.module.linkedAddress n a).value)
  · obtain ⟨hk, ht⟩ := hjump ht
    exact ⟨hk, haligned ht⟩
  · obtain ⟨hk, hname⟩ := hbranch hb
    exact ⟨hk, hown.trans hname⟩

end Labels

end Slot

inductive WordStatement where
  | data (e : Expr)
  | instruction (p : ParsedInstruction)

namespace WordStatement

def count : WordStatement → Nat
  | data _ => 1
  | instruction p => p.mnemonic.count

def argument? : WordStatement → Option Isa.Argument
  | data _ => none
  | instruction p => p.mnemonic.args.getLast?

def EndsIn (e : Expr) : WordStatement → Prop
  | data e' => e' = e
  | instruction p => p.EndsIn e

def words (enc : Encoder) (ctx : EvalContext) : WordStatement → Guarded (List EncodedWord × Bool)
  | data e => do
    let v ← e.eval ctx
    pure ([Environment.dataWord ctx.location (Environment.argumentValue v)], true)
  | instruction p => enc.encode ctx p

theorem words_form (enc : Encoder) {st : WordStatement} {e : Expr} (hst : st.EndsIn e)
    (loc : Address) :
    ∃ form : WordForm, form.count = st.count ∧ form.Suits st.argument? ∧
      ∀ ctx v ds, ctx.location = loc → e.eval ctx = .ok ⟨some v, ds⟩ → v.isRelocatable →
        ∃ r, st.words enc ctx = .ok ⟨r.value, ds ++ r.diagnostics⟩ ∧
          WordForm.Describes form.count (form.words loc v) r := by
  cases st with
  | instruction p => exact enc.encode_form hst loc
  | data e' =>
    cases hst
    refine ⟨.single .absolute32 0, rfl, rfl, fun ctx v ds hloc hv hrel => ?_⟩
    have hword : Environment.dataWord loc v = .waiting .absolute32 0 loc v.target v.number := by
      rw [Environment.dataWord, if_pos hrel]
      rfl
    refine ⟨⟨([.waiting .absolute32 0 loc v.target v.number], true), []⟩, ?_, rfl⟩
    refine bind_eq_ok.mpr ⟨_, ⟨_, []⟩, hv, ?_, rfl⟩
    rw [← hword, hloc]
    rfl

end WordStatement

namespace Slot

variable {h : Slot} {enc : Encoder} {s : Settings} {pre post : List Module} {st : WordStatement}
  {ctx ctx' : EvalContext}

/-- The program with the words of a statement in their place, if neither the statement nor linking is
an error. -/
def program (h : Slot) (enc : Encoder) (s : Settings) (pre post : List Module) (st : WordStatement)
    (ctx : EvalContext) : Option Program :=
  match st.words enc ctx with
  | .error _ => none
  | .ok r =>
    if 0 < errorCount (promoteIf s.strict r.diagnostics) then none
    else match link s (pre ++ h.fill r.value :: post) with
      | .error _ => none
      | .ok q => q.value

theorem program_eq_some {r : Reported (List EncodedWord × Bool)} (hr : st.words enc ctx = .ok r)
    {p : Program} :
    h.program enc s pre post st ctx = some p ↔ errorCount (promoteIf s.strict r.diagnostics) = 0 ∧
      (link s (pre ++ h.fill r.value :: post)).Gives (some p) := by
  rw [program, hr]
  dsimp only
  by_cases he : 0 < errorCount (promoteIf s.strict r.diagnostics)
  · rw [if_pos he]
    exact ⟨nofun, fun hp => absurd hp.1 he.ne'⟩
  · rw [if_neg he]
    cases hq : link s (pre ++ h.fill r.value :: post) with
    | error f =>
      refine ⟨nofun, ?_⟩
      rintro ⟨-, ds, hp⟩
      cases hp
    | ok q =>
      refine ⟨fun hp => ⟨by omega, q.diagnostics, ?_⟩, ?_⟩
      · rw [← show q.value = some p from hp]
      · rintro ⟨-, ds, hp⟩
        cases hp
        rfl

theorem program_of_comes {count : Nat} (hcount : count = h.count) {ds : List Diagnostic}
    {ws us : Option (List EncodedWord)} (hws : ∀ x, ws = some x → x.length = count)
    (hus : ∀ x, us = some x → x.length = count) {r q : Reported (List EncodedWord × Bool)}
    (hr : st.words enc ctx = .ok ⟨r.value, ds ++ r.diagnostics⟩)
    (hq : st.words enc ctx' = .ok ⟨q.value, ds ++ q.diagnostics⟩)
    (hdr : WordForm.Describes count ws r) (hdq : WordForm.Describes count us q)
    (halike : ∀ gs, h.GlobalsIn s pre post gs →
      ∃ o, h.Comes (Layout.ofModules s.link (pre ++ h.module :: post)) gs pre.length ws o ∧
        h.Comes (Layout.ofModules s.link (pre ++ h.module :: post)) gs pre.length us o)
    {p : Program} (hp : h.program enc s pre post st ctx = some p) :
    h.program enc s pre post st ctx' = some p := by
  obtain ⟨hquiet, hp⟩ := (program_eq_some hr).mp hp
  simp only [promoteIf_append, errorCount_append, Nat.add_eq_zero_iff] at hquiet
  -- A refused value would have left an error in place of a program, so both have words.
  cases ws with
  | none =>
    obtain ⟨-, -, -, herr⟩ := hdr
    have hle := errorCount_le_promoteIf s.strict r.diagnostics
    omega
  | some ws =>
    cases hdr
    obtain ⟨gs, hgs, hnone, hlink⟩ := link_fill ((hws ws rfl).trans hcount) hp
    obtain ⟨o, hcomes, hcomes'⟩ := halike gs hgs
    cases o with
    | none => exact absurd hcomes hnone
    | some vs =>
      cases us with
      | none => cases hcomes'
      | some us =>
        cases hdq
        refine (program_eq_some hq).mpr ⟨?_, ?_⟩
        · simpa using hquiet.1
        · exact hlink us vs ((hus us rfl).trans hcount) hcomes hcomes'

theorem program_of_words {count : Nat} {ds : List Diagnostic} {ws : Option (List EncodedWord)}
    {r q : Reported (List EncodedWord × Bool)}
    (hr : st.words enc ctx = .ok ⟨r.value, ds ++ r.diagnostics⟩)
    (hq : st.words enc ctx' = .ok ⟨q.value, ds ++ q.diagnostics⟩)
    (hdr : WordForm.Describes count ws r) (hdq : WordForm.Describes count ws q) :
    h.program enc s pre post st ctx = h.program enc s pre post st ctx' := by
  cases ws with
  | some ws =>
    cases hdr
    cases hdq
    rw [program, program, hr, hq]
  | none =>
    obtain ⟨-, -, -, her⟩ := hdr
    obtain ⟨-, -, -, heq⟩ := hdq
    have hler := errorCount_le_promoteIf s.strict r.diagnostics
    have hleq := errorCount_le_promoteIf s.strict q.diagnostics
    rw [program, program, hr, hq]
    dsimp only
    rw [promoteIf_append, promoteIf_append, errorCount_append, errorCount_append,
      if_pos (by omega), if_pos (by omega)]

theorem words_otherSection {form : WordForm} {arg : Option Isa.Argument} (hsuits : form.Suits arg)
    {n : Name} {k : Int64} (hbranch : arg = some .branch → n ≠ h.name) :
    form.words h.location (.settled (.relative n 0) k) =
      form.words h.location (.deferred h.location n k) := by
  have hnumber : (ExprValue.settled (.relative n 0) k).number =
      (ExprValue.deferred h.location n k).number := Int64.zero_add k
  have htarget : (ExprValue.settled (.relative n 0) k).target =
      (ExprValue.deferred h.location n k).target := rfl
  cases form with
  | shift => rfl
  | single kind w => rw [WordForm.words, WordForm.words, hnumber, htarget]
  | split upper lower => rw [WordForm.words, WordForm.words, hnumber, htarget]
  | jump w => rw [WordForm.words, WordForm.words, hnumber, htarget]
  | branch front w =>
    have hother : ((ExprValue.settled (.relative n 0) k).reference.isNone &&
        (ExprValue.settled (.relative n 0) k).address.sectionName == h.location.sectionName) =
          false := by
      simpa [ExprValue.settled, Address.add, location, Address.inSection, Address.relative] using
        hbranch hsuits
    have hdeferred : ((ExprValue.deferred h.location n k).reference.isNone &&
        (ExprValue.deferred h.location n k).address.sectionName == h.location.sectionName) =
          false := rfl
    simp only [WordForm.words, hother, hdeferred, hnumber, htarget]

/-- A statement about a label gives the same program where the label is known and where it is left to
linking, for the address that linking takes. This is the address of the label, unless the name of
the label is also that of a section. -/
theorem program_settling_eq_deferring (h : Slot) (enc : Encoder) (s : Settings)
    (pre post : List Module)
    (hassigned : ∀ m ∈ pre ++ h.module :: post, ∀ t ∈ m.symbols, t.binding.isAssigned)
    {n : Name} {a : Address} (hlabel : h.module.HasLabel n a) {st : WordStatement} {e : Expr}
    (hst : st.EndsIn e) (hcount : st.count = h.count) {ctx : EvalContext}
    (hctx : ctx.location = h.location) {k : Int64} (he : e.Offsets ctx n k)
    (hjump : st.argument? = some .target → k % 4 = 0 ∧
      ∃ t, h.module.section? a.sectionName = some t ∧ 2 ≤ t.alignment)
    (hbranch : st.argument? = some .branch → k = 0 ∧ a.sectionName = h.name) :
    h.program enc s pre post st (ctx.settling n (h.module.linkedAddress n a)) =
      h.program enc s pre post st (ctx.deferring n) := by
  have hstandard := Layout.isEmpty_standard hlabel.standard
  have hrel : (h.module.linkedAddress n a).isRelocatable = true := by
    rw [linkedAddress]
    split
    · simp [Address.isRelocatable, Address.relative, hlabel.named]
    · simp [Address.isRelocatable, hstandard]
  obtain ⟨ds, hsettling, hdeferring⟩ := he.eval hrel
  obtain ⟨form, hform, hsuits, hwords⟩ := WordStatement.words_form enc hst h.location
  obtain ⟨r, hr, hdr⟩ := hwords (ctx.settling n _) _ ds hctx hsettling
    (by simp [ExprValue.isRelocatable, ExprValue.settled, hrel])
  obtain ⟨q, hq, hdq⟩ := hwords (ctx.deferring n) _ ds hctx hdeferring
    (by simp [ExprValue.isRelocatable, ExprValue.deferred])
  rw [hctx] at hdq
  -- The linker takes the label, unless a section of its name comes first.
  by_cases hown : (h.module.linkedAddress n a).sectionName = a.sectionName
  · have hc := hform.trans hcount
    have halike : ∀ gs, h.GlobalsIn s pre post gs → _ := fun _ =>
      comes_label hassigned hlabel hown hc hsuits hjump hbranch
    refine Option.ext fun p => ⟨fun hp => ?_, fun hp => ?_⟩
    · exact program_of_comes hc (fun _ => WordForm.length_words) (fun _ => WordForm.length_words)
        hr hq hdr hdq halike hp
    · exact program_of_comes hc (fun _ => WordForm.length_words) (fun _ => WordForm.length_words)
        hq hr hdq hdr (fun gs hgs => (halike gs hgs).imp fun _ => And.symm) hp
  · have hsection : h.module.linkedAddress n a = .relative n 0 := by
      by_cases hn : h.module.isSectionName n
      · exact if_pos hn
      · exact absurd (congrArg Address.sectionName (if_neg hn)) hown
    rw [hsection] at hr hdr hown ⊢
    have hother : st.argument? = some .branch → n ≠ h.name := fun hb hn =>
      hown (hn.trans (hbranch hb).2.symm)
    rw [words_otherSection hsuits hother] at hdr
    exact program_of_words hr hq hdr hdq

/-- A label of the data section has the name of another section, and one word comes before it. -/
def sharedName : Slot where
  module :=
    { name := "a.s"
      order := .big
      sections :=
        [⟨".text", StandardSection.text.flags, 0, 2, [0, 0, 0, 0].toByteArray⟩,
          ⟨".data", StandardSection.data.flags, 0, 2, [0, 0, 0, 0, 0, 0, 0, 4].toByteArray⟩,
          ⟨"foo", StandardSection.data.flags, 0, 2, [0, 0, 0, 7].toByteArray⟩]
      symbols :=
        [⟨"main", .label, .global, some (.relative ".text" 0), true, .none⟩,
          ⟨"foo", .label, .internal, some (.relative ".data" 4), true, .none⟩]
      finalized := true }
  name := ".data"
  start := 0
  count := 1
  before := []
  after := [⟨.relative ".data" 4, ".data", .absolute32, 4⟩]
  inside := by decide
  sized := by decide
  clear := by decide

def sharedSymbol : Expr := .symbol "foo" ⟨"foo", .identifier, .none⟩

def emptyContext (loc : Address) : EvalContext := ⟨fun _ => none, loc⟩

theorem program_sharedName : sharedName.module.HasLabel "foo" (.relative ".data" 4) ∧
    sharedName.program (Settings.encoder {}) {} [] [] (.data sharedSymbol)
        ((emptyContext sharedName.location).settling "foo" (.relative "foo" 0)) =
      sharedName.program (Settings.encoder {}) {} [] [] (.data sharedSymbol)
        ((emptyContext sharedName.location).deferring "foo") ∧
    (sharedName.program (Settings.encoder {}) {} [] [] (.data sharedSymbol)
        ((emptyContext sharedName.location).deferring "foo")).bind
      (·.image.wordIn? .big ".data" 0) = some 0x10010008 ∧
    (sharedName.program (Settings.encoder {}) {} [] [] (.data sharedSymbol)
        ((emptyContext sharedName.location).settling "foo" (.relative ".data" 4))).bind
      (·.image.wordIn? .big ".data" 0) = some 0x10010004 := by
  have hlabel : sharedName.module.HasLabel "foo" (.relative ".data" 4) :=
    ⟨by decide, by decide, by decide⟩
  have hends : (WordStatement.data sharedSymbol).EndsIn sharedSymbol := rfl
  have hvalue : sharedSymbol.Offsets (emptyContext sharedName.location) "foo" 0 :=
    ⟨[], rfl⟩
  refine ⟨hlabel, ?_, by decide +kernel, by decide +kernel⟩
  exact program_settling_eq_deferring sharedName _ _ [] [] (by decide +kernel) hlabel hends rfl rfl
    hvalue nofun nofun

end Slot

end MipsToolchain
