import MipsToolchain.Proofs.Link.Shapes
import MipsToolchain.Proofs.Link.Slots

namespace MipsToolchain

open Diagnostic Guarded MipsToolchain.Module

section Runs

variable {l : Layout} {gs : Globals} {i : Nat}

theorem linkReferences_append (rs qs : List Reference) (m : Module) :
    linkReferences l gs i (rs ++ qs) m =
      linkReferences l gs i rs m >>= linkReferences l gs i qs := by
  induction rs generalizing m with
  | nil => exact (pure_bind m (linkReferences l gs i qs)).symm
  | cons r rs ih =>
    rw [List.cons_append, linkReferences, linkReferences, bind_assoc]
    exact congrArg _ (funext ih)

theorem linkModules_append (as bs : List Module) :
    linkModules l gs i (as ++ bs) = (linkModules l gs i as >>= fun xs =>
      linkModules l gs (i + as.length) bs >>= fun ys => pure (xs ++ ys)) := by
  induction as generalizing i with
  | nil => simp [linkModules]
  | cons m as ih =>
    simp only [List.cons_append, linkModules, ih, bind_assoc, pure_bind, List.length_cons,
      show i + 1 + as.length = i + (as.length + 1) by omega]

theorem linkModules_middle {pre post : List Module} {m : Module} {r : Reported (List Module)} :
    linkModules l gs i (pre ++ m :: post) = .ok r ↔ ∃ a b c, linkModules l gs i pre = .ok a ∧
      linkReferences l gs (i + pre.length) m.references m = .ok b ∧
      linkModules l gs (i + pre.length + 1) post = .ok c ∧
      r = ⟨a.value ++ b.value :: c.value, a.diagnostics ++ (b.diagnostics ++ c.diagnostics)⟩ := by
  simp only [linkModules_append, linkModules, bind_eq_ok, pure_eq_ok]
  constructor
  · rintro ⟨a, _, ha, ⟨_, _, ⟨b, _, hb, ⟨c, _, hc, rfl, rfl⟩, rfl⟩, rfl, rfl⟩, rfl⟩
    exact ⟨a, b, c, ha, hb, hc, by simp⟩
  · rintro ⟨a, b, c, ha, hb, hc, rfl⟩
    exact ⟨a, _, ha, ⟨_, _, ⟨b, _, hb, ⟨c, _, hc, rfl, rfl⟩, rfl⟩, rfl, rfl⟩, by simp⟩

end Runs

namespace Slot

section References

variable {h : Slot} {l : Layout} {gs : Globals} {i : Nat} {ws : List EncodedWord}

theorem linkReferences_fill (hc : ws.length = h.count) :
    linkReferences l gs i (h.fill (ws, true)).references (h.fill (ws, true)) =
      (linkReferences l gs i h.before h.module >>= fun m =>
        linkReferences l gs i (ws.filterMap (·.reference)) (putWords h.name h.start
          (ws.map (·.value)) (h.fill (ws, true)).references m) >>=
        linkReferences l gs i h.after) := by
  have hclear : ∀ r ∈ h.before, r.ClearOf h.name h.start (4 * (ws.map (·.value)).length) := by
    rw [List.length_map, hc]
    exact fun r hr => h.clear r (List.mem_append_left _ hr)
  have hrefs : (h.fill (ws, true)).references =
      h.before ++ (ws.filterMap (·.reference) ++ h.after) := List.append_assoc _ _ _
  have hfill : h.fill (ws, true) = putWords h.name h.start (ws.map (·.value))
      (h.fill (ws, true)).references h.module := rfl
  generalize (h.fill (ws, true)).references = rs at hrefs hfill ⊢
  rw [hfill, hrefs, linkReferences_append, linkReferences_putWords_clear hclear, mapValue_bind]
  exact congrArg _ (funext fun m => linkReferences_append _ _ _)

/-- What linking makes of the module depends on what it makes of the statement only. -/
theorem linkReferences_fill_some (hc : ws.length = h.count) {vs : List UInt32}
    (hs : h.Settles l gs i ws (some vs)) :
    linkReferences l gs i (h.fill (ws, true)).references (h.fill (ws, true)) =
      (linkReferences l gs i (h.before ++ h.after) h.module).mapValue
        (putWords h.name h.start vs (h.fill (ws, true)).references) := by
  rw [linkReferences_fill hc, linkReferences_append, bind_mapValue]
  refine bind_congr_ok fun b hb => ?_
  obtain ⟨r, hr, hlen, rfl⟩ := hs (h.fill (ws, true)).references b.value
    (untouched_linkReferences hb)
  have hclear : ∀ r ∈ h.after, r.ClearOf h.name h.start (4 * vs.length) := by
    rw [hlen]
    exact fun r hr => h.clear r (List.mem_append_right _ hr)
  rw [hr, ← linkReferences_putWords_clear hclear]
  exact pure_bind _ _

/-- Words that come to the same can be exchanged once they are linked, when they are read no more. -/
theorem linkReferences_exchange {us : List EncodedWord} {vs : List UInt32} (hc : ws.length = h.count)
    (hc' : us.length = h.count) (hs : h.Settles l gs i ws (some vs))
    (hs' : h.Settles l gs i us (some vs)) {b : Reported Module}
    (hb : linkReferences l gs i (h.fill (ws, true)).references (h.fill (ws, true)) = .ok b) :
    ∃ b', linkReferences l gs i (h.fill (us, true)).references (h.fill (us, true)) = .ok b' ∧
      b'.value.sections = b.value.sections ∧ b'.diagnostics = b.diagnostics := by
  rw [linkReferences_fill_some hc hs] at hb
  obtain ⟨b₀, hb₀, rfl⟩ := mapValue_eq_ok.mp hb
  rw [linkReferences_fill_some hc' hs']
  exact ⟨_, mapValue_eq_ok.mpr ⟨b₀, hb₀, rfl⟩, rfl, rfl⟩

theorem errorCount_fill_none (hc : ws.length = h.count) (hs : h.Settles l gs i ws none)
    {r : Reported Module}
    (hr : linkReferences l gs i (h.fill (ws, true)).references (h.fill (ws, true)) = .ok r) :
    0 < errorCount r.diagnostics := by
  rw [linkReferences_fill hc] at hr
  obtain ⟨b, _, hb, hrest, rfl⟩ := bind_eq_ok.mp hr
  obtain ⟨q, a, hq, -, rfl⟩ := bind_eq_ok.mp hrest
  obtain ⟨q', hq', he⟩ := hs (h.fill (ws, true)).references b.value (untouched_linkReferences hb)
  rw [hq] at hq'
  cases hq'
  simp only [errorCount_append]
  exact Nat.lt_of_lt_of_le he (by omega)

end References

section Programs

variable {h : Slot} {s : Settings} {pre post : List Module} {ws us : List EncodedWord}

theorem alike_fill (x : List EncodedWord × Bool) (pre post : List Module) :
    List.Forall₂ Alike (pre ++ h.module :: post) (pre ++ h.fill x :: post) :=
  List.rel_append (List.forall₂_same.mpr fun m _ => .refl m)
    (.cons (alike_putWords _ _ _ _ _) (List.forall₂_same.mpr fun m _ => .refl m))

/-- What linking makes of words in a program, if its global symbols do not conflict. -/
def SettlesIn (h : Slot) (s : Settings) (pre post : List Module) (ws : List EncodedWord)
    (gs : Globals) (o : Option (List UInt32)) : Prop :=
  h.Settles (Layout.ofModules s.link (pre ++ h.module :: post)) gs pre.length ws o

def GlobalsIn (h : Slot) (s : Settings) (pre post : List Module) (gs : Globals) : Prop :=
  ∃ r, Globals.ofModules (Layout.ofModules s.link (pre ++ h.module :: post))
    (pre ++ h.module :: post) = .ok r ∧ errorCount r.diagnostics = 0 ∧ r.value = gs

theorem link_fill {p : Program} (hc : ws.length = h.count)
    (hp : (link s (pre ++ h.fill (ws, true) :: post)).Gives (some p)) :
    ∃ gs, h.GlobalsIn s pre post gs ∧ ¬ h.SettlesIn s pre post ws gs none ∧
      ∀ us vs, us.length = h.count → h.SettlesIn s pre post ws gs (some vs) →
        h.SettlesIn s pre post us gs (some vs) →
        (link s (pre ++ h.fill (us, true) :: post)).Gives (some p) := by
  obtain ⟨ds, hp⟩ := hp
  obtain ⟨gs, out, hl⟩ := linking_of_link hp rfl
  have hlayout := fun us => Layout.ofModules_congr s.link (h.alike_fill (us, true) pre post)
  have hglobals := fun us l => Globals.ofModules_congr (h.alike_fill (us, true) pre post) l
  have hchecks := fun us => checkModules_congr (h.alike_fill (us, true) pre post)
  obtain ⟨hchecked, hgs, hmodules, hquiet, himage, hentry, htable⟩ := hl
  rw [hlayout] at hgs hmodules hquiet himage
  rw [hglobals] at hgs
  rw [hchecks] at hchecked hquiet
  obtain ⟨a, b, c, ha, hb, hc', rfl⟩ := linkModules_middle.mp hmodules
  rw [Nat.zero_add] at hb hc'
  have hgsQuiet : errorCount gs.diagnostics = 0 := by
    have herr := errorCount_le_promoteIf s.strict gs.diagnostics
    have hpromoted := hquiet gs.diagnostics (by simp)
    omega
  refine ⟨gs.value, ⟨gs, hgs, hgsQuiet, rfl⟩, fun hnone => ?_, fun us vs hus hws hsettles => ?_⟩
  -- If linking made an error of the words, there would be no program.
  · have herr := errorCount_le_promoteIf s.strict
      (a.diagnostics ++ (b.diagnostics ++ c.diagnostics))
    have hpromoted := hquiet (a.diagnostics ++ (b.diagnostics ++ c.diagnostics)) (by simp)
    have hpos := errorCount_fill_none hc hnone hb
    simp only [errorCount_append] at herr
    omega
  · obtain ⟨b', hb', hsections, hdiagnostics⟩ := linkReferences_exchange hc hus hws hsettles hb
    have hlinking : Linking s (pre ++ h.fill (us, true) :: post) p gs
        ⟨a.value ++ b'.value :: c.value, a.diagnostics ++ (b'.diagnostics ++ c.diagnostics)⟩ := by
      constructor
      · rw [hchecks]
        exact hchecked
      · rw [hlayout, hglobals]
        exact hgs
      · rw [hlayout]
        refine linkModules_middle.mpr ⟨a, b', c, ha, ?_, ?_, rfl⟩ <;> rw [Nat.zero_add]
        · exact hb'
        · exact hc'
      · rw [hlayout, hchecks, hdiagnostics]
        exact hquiet
      · rw [hlayout, ← himage]
        refine Layout.image_congr _ _ _ ?_
        simp only [List.map_append, List.map_cons, hsections]
      · exact hentry
      · exact htable
    exact hlinking.link_eq

end Programs

end Slot

end MipsToolchain
