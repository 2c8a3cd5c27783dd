import MipsToolchain.Proofs.Encoding.Deferral
import MipsToolchain.Proofs.Link.Patching
import MipsToolchain.Proofs.Object.Relocation
import MipsToolchain.Proofs.Object.Slots

namespace MipsToolchain

open Diagnostic Guarded MipsToolchain.Module

namespace Isa

theorem toNat_store_half {kind : RelocationKind}
    (hk : kind = .high16 ∨ kind = .low16 ∨ kind = .pcrel16) (w : UInt32) (n : Int64) :
    ((kind.store w n).toNat : Int) =
      w.toNat / 0x10000 * 0x10000 + (kind.field n).toInt % 0x10000 := by
  have hlow := toNat_lowWord (kind.field n)
  have hstore : kind.store w n = withImmediateField w (lowWord (kind.field n)) := by
    rcases hk with rfl | rfl | rfl <;> rfl
  rw [hstore, toNat_withImmediateField]
  omega

theorem toNat_store_jump (w : UInt32) (n : Int64) :
    ((RelocationKind.jump26.store w n).toNat : Int) =
      w.toNat / 0x4000000 * 0x4000000 + n.toInt / 4 % 0x4000000 := by
  have hlow := toNat_lowWord (n >>> 2)
  rw [toInt_shiftRight_two] at hlow
  have hstore : RelocationKind.jump26.store w n = withJumpField w (lowWord (n >>> 2)) := rfl
  rw [hstore, toNat_withJumpField]
  omega

end Isa

namespace Module

section Words

variable {m : Module} {r : Reference} {t : Int64}

theorem relocatedWord_store (hk : r.kind = .absolute32 ∨ r.kind = .low16) (w : UInt32) (n : Int64) :
    (m.relocatedWord r (r.kind.store w n) t).run = .ok (.ok (r.kind.store w (n + t))) := by
  rcases hk with hk | hk
  · rw [relocatedWord, hk]
    exact congrArg (fun v => Except.ok (Except.ok v)) (Isa.lowWord_add n t)
  · have hrun : (m.relocatedWord r (r.kind.store w n) t).run = .ok (.ok
        ((r.kind.store w n &&& 0xffff0000) ||| ((r.kind.store w n + Isa.lowWord t) &&& 0xffff))) := by
      rw [relocatedWord, hk]
      rfl
    obtain ⟨hhigh, hlow⟩ := relocatedWord_low16 hk hrun
    have hold := Isa.toNat_store_half (.inr (.inl hk)) w n
    have hnew := Isa.toNat_store_half (.inr (.inl hk)) w (n + t)
    have hsum := Isa.toInt_add_mod n t
    rw [hrun]
    refine congrArg (fun v => Except.ok (Except.ok v)) ?_
    rw [← UInt32.toNat_inj]
    rw [hk] at hold hnew hhigh hlow ⊢
    dsimp only [RelocationKind.field] at hold hnew
    generalize ((RelocationKind.low16.store w n &&& 0xffff0000) |||
      ((RelocationKind.low16.store w n + Isa.lowWord t) &&& 0xffff)) = v at hhigh hlow ⊢
    omega

/-- The upper half of an address takes the carry from the lower one. -/
theorem relocatedWord_store_high (hk : r.kind = .high16) (w : UInt32) {lower : UInt32} {n : Int64}
    (hl : (m.readWord (r.location.add 4)).run = .ok (.ok (RelocationKind.low16.store lower n))) :
    (m.relocatedWord r (RelocationKind.high16.store w n) t).run =
      .ok (.ok (RelocationKind.high16.store w (n + t))) := by
  obtain ⟨v, hrun⟩ : ∃ v, (m.relocatedWord r (RelocationKind.high16.store w n) t).run =
      .ok (.ok v) := by
    rw [relocatedWord, hk]
    exact ⟨_, run_bind_eq_ok.mpr ⟨_, run_adapt_eq_ok.mpr hl, rfl⟩⟩
  obtain ⟨u, hu, hhigh, hlow⟩ := relocatedWord_high16 hk hrun
  have heq : u = RelocationKind.low16.store lower n :=
    Option.some.inj (hu.symm.trans (readWord_eq_ok hl))
  have hold := Isa.toNat_store_half (.inl rfl) w n
  have hlower := Isa.toNat_store_half (.inr (.inl rfl)) lower n
  have hnew := Isa.toNat_store_half (.inl rfl) w (n + t)
  have hsum := Isa.toInt_add_mod n t
  rw [← heq] at hlower
  rw [hrun]
  refine congrArg (fun v => Except.ok (Except.ok v)) ?_
  rw [← UInt32.toNat_inj]
  unfold joined at hlow
  dsimp only [RelocationKind.field] at hold hlower hnew
  rw [Isa.toInt_shiftRight_sixteen] at hold hnew
  omega

theorem relocatedWord_store_jump (hk : r.kind = .jump26) (w : UInt32) {n : Int64} (hn : n % 4 = 0) :
    (m.relocatedWord r (RelocationKind.jump26.store w n) t).run =
      if t % 4 = 0 then .ok (.ok (RelocationKind.jump26.store w (n + t)))
      else .ok (.error (.jumpMisaligned r)) := by
  by_cases ht : t % 4 = 0
  · obtain ⟨v, hrun⟩ : ∃ v, (m.relocatedWord r (RelocationKind.jump26.store w n) t).run =
        .ok (.ok v) := by
      rw [relocatedWord, hk]
      dsimp only
      rw [if_neg (not_not.mpr ht)]
      exact ⟨_, rfl⟩
    obtain ⟨hdvd, hhigh, hlow⟩ := relocatedWord_jump26 hk hrun
    have hndvd := Isa.dvd_toInt_of_mod_four hn
    have hold := Isa.toNat_store_jump w n
    have hnew := Isa.toNat_store_jump w (n + t)
    have hsum := Isa.toInt_add_mod n t
    have hsumdvd := Isa.dvd_toInt_of_mod_four ((Isa.mod_four_add_iff ht).mpr hn)
    rw [hrun, if_pos ht]
    refine congrArg (fun v => Except.ok (Except.ok v)) ?_
    rw [← UInt32.toNat_inj]
    omega
  · rw [if_neg ht, relocatedWord, hk]
    dsimp only
    rw [if_pos ht]
    rfl

theorem relocatedWord_store_branch (hk : r.kind = .pcrel16) (w : UInt32) :
    ∃ e, (m.relocatedWord r (RelocationKind.pcrel16.store w 0) t).run =
      if t % 4 = 0 ∧ Isa.fitsSigned (t >>> 2) 16 then
        .ok (.ok (RelocationKind.pcrel16.store w t))
      else .ok (.error e) := by
  have hzero : Isa.signExtend (Isa.immediateField (RelocationKind.pcrel16.store w 0)) 16 = 0 := by
    have hstore := Isa.toNat_store_half (.inr (.inr rfl)) w 0
    rw [← Int64.toInt_inj, Isa.immediateField, Isa.immediateMask, Isa.toInt_signExtend16, hstore]
    change (_ + (0 : Int) % 0x10000).bmod 0x10000 = 0
    rw [Int.bmod_def]
    split <;> omega
  rw [relocatedWord, hk]
  dsimp only
  rw [hzero, Int64.zero_add]
  -- The field holds nothing yet, so what it has to hold is the displacement itself.
  by_cases ht : t % 4 = 0
  · rw [if_neg (not_not.mpr ht)]
    by_cases hf : Isa.fitsSigned (t >>> 2) 16
    · refine ⟨.branchMisaligned r, ?_⟩
      rw [if_pos hf, if_pos ⟨ht, hf⟩]
      refine congrArg (fun v => Except.ok (Except.ok v)) ?_
      have hold := Isa.toNat_store_half (.inr (.inr rfl)) w 0
      have hnew := Isa.toNat_store_half (.inr (.inr rfl)) w t
      have hlow := Isa.toNat_lowWord (t >>> 2)
      rw [← UInt32.toNat_inj, Isa.toNat_withImmediateField]
      dsimp only [RelocationKind.field] at hold hnew
      have hz : ((0 : Int64) >>> 2).toInt = 0 := by decide
      rw [hz] at hold
      omega
    · refine ⟨.overflow r (t >>> 2), ?_⟩
      rw [if_neg hf, if_neg fun h => hf h.2]
      rfl
  · refine ⟨.branchMisaligned r, ?_⟩
    rw [if_pos ht, if_neg fun h => ht h.1]
    rfl

end Words

end Module

section Clear

variable {l : Layout} {gs : Globals} {i : Nat} {n : Name} {k : Nat} {ws : List UInt32}
  {rs : List Reference} {m : Module}

theorem resolveReference_putWords (r : Reference) :
    resolveReference l gs i (putWords n k ws rs m) r = resolveReference l gs i m r := by
  have hlen : ((putWords n k ws rs m).section? r.symbol).map Section.length =
      (m.section? r.symbol).map Section.length := length_section?_putWords r.symbol
  have hsec := congrArg Option.isSome hlen
  simp only [Option.isSome_map] at hsec
  have hname : (putWords n k ws rs m).isSectionName r.symbol = m.isSectionName r.symbol := by
    simp only [isSectionName, hsec]
  unfold resolveReference
  rw [hname]
  rfl

theorem linkReference_putWords_clear {r : Reference} (h : r.ClearOf n k (4 * ws.length)) :
    linkReference l gs i (putWords n k ws rs m) r =
      (linkReference l gs i m r).mapValue (putWords n k ws rs) := by
  rw [linkReference_eq, linkReference_eq, resolveReference_putWords]
  rcases resolveReference l gs i m r with f | ⟨_ | t⟩
  · rfl
  · rfl
  · dsimp only
    rcases relocationDelta l i r t with f | delta
    · rfl
    · dsimp only
      rw [relocate_putWords_clear h]
      rcases (m.relocate r delta).run with f | ⟨e | m'⟩ <;> rfl

theorem linkReferences_putWords_clear {qs : List Reference}
    (h : ∀ r ∈ qs, r.ClearOf n k (4 * ws.length)) :
    linkReferences l gs i qs (putWords n k ws rs m) =
      (linkReferences l gs i qs m).mapValue (putWords n k ws rs) := by
  induction qs generalizing m with
  | nil => rfl
  | cons r qs ih =>
    rw [linkReferences, linkReferences, linkReference_putWords_clear (h r (by simp)), mapValue_bind,
      bind_mapValue]
    exact congrArg _ (funext fun m' => ih fun q hq => h q (by simp [hq]))

end Clear

/-- A place in a section of a module for the words of one statement. The other references of the
module, which come before and after those of the statement, are about words elsewhere. -/
structure Slot where
  module : Module
  name : Name
  start : Nat
  count : Nat
  before : List Reference
  after : List Reference
  inside : start + 4 * count ≤ module.offset name
  sized : module.offset name < 0x8000000000000000
  clear : ∀ r ∈ before ++ after, r.ClearOf name start (4 * count)

namespace Slot

def location (h : Slot) : Address := .inSection h.name h.start

/-- The module with the words of the statement, and with their references if the statement is
right. -/
def fill (h : Slot) (x : List EncodedWord × Bool) : Module :=
  putWords h.name h.start (x.1.map (·.value))
    (h.before ++ (if x.2 then x.1.filterMap (·.reference) else []) ++ h.after) h.module

/-- What linking makes of the words of a right statement: other words, or an error. -/
def Settles (h : Slot) (l : Layout) (gs : Globals) (i : Nat) (ws : List EncodedWord)
    (o : Option (List UInt32)) : Prop :=
  ∀ rs m, Untouched h.before h.module m →
    ∃ r, linkReferences l gs i (ws.filterMap (·.reference))
        (putWords h.name h.start (ws.map (·.value)) rs m) = .ok r ∧
      match o with
      | some vs => vs.length = h.count ∧ r = ⟨putWords h.name h.start vs rs m, []⟩
      | none => 0 < errorCount r.diagnostics

section Settling

variable {h : Slot} {l : Layout} {gs : Globals} {i : Nat} {ws : List UInt32}
  {rs : List Reference} {m : Module} {r : Reference} {j : Nat} {w : UInt32} {t delta : Int64}

theorem fits (hu : Untouched h.before h.module m) (hc : ws.length = h.count) :
    h.start + 4 * ws.length ≤ m.offset h.name ∧ m.offset h.name < 0x8000000000000000 := by
  rw [hu.offset, hc]
  exact ⟨h.inside, h.sized⟩

theorem linkReference_fill (hu : Untouched h.before h.module m) (hc : ws.length = h.count)
    (hloc : r.location = .inSection h.name (h.start + 4 * j)) (hw : ws[j]? = some w)
    (ht : resolveReference l gs i h.module r = .ok (some t))
    (hd : relocationDelta l i r t = .ok delta) {res : Except RelocationError UInt32}
    (hres : ((putWords h.name h.start ws rs m).relocatedWord r w delta).run = .ok res) :
    ∃ q, linkReference l gs i (putWords h.name h.start ws rs m) r = .ok q ∧
      match res with
      | .ok w' => q = ⟨putWords h.name h.start (ws.set j w') rs m, []⟩
      | .error _ => 0 < errorCount q.diagnostics := by
  obtain ⟨hinside, hsized⟩ := fits hu hc
  have hrel := relocate_putWords hinside hsized hloc hw hres
  rw [linkReference_eq, resolveReference_putWords, hu.resolveReference, ht]
  dsimp only
  rw [hd]
  dsimp only
  rw [hrel]
  cases res with
  | ok w' => exact ⟨_, rfl, rfl⟩
  | error e =>
    exact ⟨_, rfl, Nat.pos_of_ne_zero (by simpa using errorCount_report_append rfl _ _ _ [])⟩

theorem linkReferences_singleton (r : Reference) (m : Module) :
    linkReferences l gs i [r] m = linkReference l gs i m r := bind_pure _

theorem settles_plain {vs : List UInt32} (hc : vs.length = h.count) :
    h.Settles l gs i (vs.map (⟨·, none⟩)) (some vs) := by
  intro rs m _
  have hvalues : (vs.map fun v => (⟨v, none⟩ : EncodedWord)).map (·.value) = vs := by
    rw [List.map_map]
    exact List.map_id vs
  have hnone : (vs.map fun v => (⟨v, none⟩ : EncodedWord)).filterMap (·.reference) = [] := by
    simp [List.filterMap_map]
  rw [hvalues, hnone]
  exact ⟨_, rfl, hc, rfl⟩

theorem location_word (j : Nat) :
    h.location.add (Int64.ofNat (4 * j)) = .inSection h.name (h.start + 4 * j) :=
  Address.add_inSection _ _ _

theorem location_first : h.location = .inSection h.name (h.start + 4 * 0) := rfl

theorem location_zero : h.location.add (Int64.ofNat (4 * ([] : List UInt32).length)) = h.location :=
  location_word 0

variable {n : Name} {k : Int64}

/-- Words of which the last waits for a reference. What it comes to depends on no other word. -/
theorem settles_reference (front : List UInt32) (hc : h.count = front.length + 1)
    {kind : RelocationKind} {w : UInt32} {o : Option (List UInt32)}
    (ht : ∀ r, r.symbol = n → resolveReference l gs i h.module r = .ok (some t))
    (hd : ∀ r : Reference, r.kind = kind →
      r.location = h.location.add (Int64.ofNat (4 * front.length)) →
      relocationDelta l i r t = .ok delta)
    (hword : ∀ (r : Reference) (m : Module), r.kind = kind → ∃ res,
      (m.relocatedWord r (kind.store w k) delta).run = .ok res ∧
        res.toOption.map (fun v => front ++ [v]) = o) :
    h.Settles l gs i (front.map (⟨·, none⟩) ++
        [.waiting kind w (h.location.add (Int64.ofNat (4 * front.length))) n k]) o := by
  intro rs m hu
  have hvalues : (front.map (fun v => (⟨v, none⟩ : EncodedWord)) ++
      [EncodedWord.waiting kind w (h.location.add (Int64.ofNat (4 * front.length))) n k]).map
        (·.value) = front ++ [kind.store w k] := by
    rw [List.map_append, List.map_map]
    exact congrArg (· ++ _) (List.map_id front)
  have hrefs : (front.map (fun v => (⟨v, none⟩ : EncodedWord)) ++
      [EncodedWord.waiting kind w (h.location.add (Int64.ofNat (4 * front.length))) n k]).filterMap
        (·.reference) = [⟨h.location.add (Int64.ofNat (4 * front.length)), n, kind, k⟩] := by
    simp [List.filterMap_append, List.filterMap_map, EncodedWord.waiting]
  rw [hvalues, hrefs]
  have hlen : (front ++ [kind.store w k]).length = h.count := by simp [hc]
  have hlast : (front ++ [kind.store w k])[front.length]? = some (kind.store w k) := by simp
  obtain ⟨res, hrun, rfl⟩ := hword ⟨_, n, kind, k⟩ _ rfl
  obtain ⟨q, hq, hresult⟩ :=
    linkReference_fill hu hlen (location_word _) hlast (ht _ rfl) (hd _ rfl rfl) hrun
  refine ⟨q, (linkReferences_singleton _ _).trans hq, ?_⟩
  cases res with
  | ok v => exact ⟨by simp [hc], by simpa using hresult⟩
  | error e => exact hresult

theorem settles_single (hc : h.count = 1) {kind : RelocationKind}
    (hk : kind = .absolute32 ∨ kind = .low16)
    (ht : ∀ r, r.symbol = n → resolveReference l gs i h.module r = .ok (some t)) (w : UInt32) :
    h.Settles l gs i [.waiting kind w h.location n k] (some [kind.store w (k + t)]) := by
  rw [← location_zero]
  refine settles_reference [] hc ht (fun r hr _ => if_neg ?_) fun r m hr => ?_
  · rcases hk with rfl | rfl <;> simp [hr]
  · subst hr
    exact ⟨_, relocatedWord_store hk w k, rfl⟩

-- The upper half reads the lower one, which is therefore patched after it.
theorem settles_split (hc : h.count = 2)
    (ht : ∀ r, r.symbol = n → resolveReference l gs i h.module r = .ok (some t))
    (upper lower : UInt32) :
    h.Settles l gs i [.waiting .high16 upper h.location n k,
        .waiting .low16 lower (h.location.add 4) n k]
      (some [RelocationKind.high16.store upper (k + t), RelocationKind.low16.store lower (k + t)]) := by
  intro rs m hu
  have hlen : [RelocationKind.high16.store upper k, RelocationKind.low16.store lower k].length =
      h.count := hc.symm
  obtain ⟨hinside, hsized⟩ := fits hu hlen
  have hlower : ((putWords h.name h.start [RelocationKind.high16.store upper k,
      RelocationKind.low16.store lower k] rs m).readWord (h.location.add 4)).run =
        .ok (.ok (RelocationKind.low16.store lower k)) := by
    have hplace : h.location.add 4 = .inSection h.name (h.start + 4 * 1) := location_word 1
    rw [hplace]
    exact readWord_putWords hinside hsized rfl
  have hhigh := relocatedWord_store_high (r := ⟨h.location, n, .high16, k⟩) (t := t) rfl upper hlower
  obtain ⟨_, hr, rfl⟩ := linkReference_fill hu hlen location_first rfl (ht _ rfl) rfl hhigh
  have hlen' : [RelocationKind.high16.store upper (k + t),
      RelocationKind.low16.store lower k].length = h.count := hc.symm
  have hlow := relocatedWord_store (t := t) (r := ⟨h.location.add 4, n, .low16, k⟩)
    (m := putWords h.name h.start [RelocationKind.high16.store upper (k + t),
      RelocationKind.low16.store lower k] rs m) (.inr rfl) lower k
  obtain ⟨_, hq, rfl⟩ := linkReference_fill hu hlen' (location_word 1) rfl (ht _ rfl) rfl hlow
  exact ⟨_, bind_eq_ok.mpr ⟨_, _, hr, (linkReferences_singleton _ _).trans hq, rfl⟩, hc.symm, rfl⟩

theorem settles_jump (hc : h.count = 1) (hk : k % 4 = 0)
    (ht : ∀ r, r.symbol = n → resolveReference l gs i h.module r = .ok (some t)) (w : UInt32) :
    h.Settles l gs i [.waiting .jump26 w h.location n k]
      (if t % 4 = 0 then some [RelocationKind.jump26.store w (k + t)] else none) := by
  have hdelta : ∀ r : Reference, r.kind = .jump26 →
      r.location = h.location.add (Int64.ofNat (4 * ([] : List UInt32).length)) →
      relocationDelta l i r t = .ok t := fun r hr _ => if_neg (by simp [hr])
  rw [← location_zero]
  split
  · next hmod =>
    refine settles_reference [] hc ht hdelta fun r m hr => ?_
    exact ⟨_, (relocatedWord_store_jump hr w hk).trans (if_pos hmod), rfl⟩
  · next hmod =>
    refine settles_reference [] hc ht hdelta fun r m hr => ?_
    exact ⟨_, (relocatedWord_store_jump hr w hk).trans (if_neg hmod), rfl⟩

theorem settles_branch {front : List UInt32} (hc : h.count = front.length + 1)
    (ht : ∀ r, r.symbol = n → resolveReference l gs i h.module r = .ok (some t)) {place : Int64}
    (hp : l.resolve i (h.location.add (Int64.ofNat (4 * front.length))) = .ok place) (w : UInt32) :
    h.Settles l gs i (front.map (⟨·, none⟩) ++
        [.waiting .pcrel16 w (h.location.add (Int64.ofNat (4 * front.length))) n 0])
      (if (t - (place + 4)) % 4 = 0 ∧ Isa.fitsSigned ((t - (place + 4)) >>> 2) 16 then
        some (front ++ [RelocationKind.pcrel16.store w (t - (place + 4))])
      else none) := by
  have hdelta : ∀ r : Reference, r.kind = .pcrel16 →
      r.location = h.location.add (Int64.ofNat (4 * front.length)) →
      relocationDelta l i r t = .ok (t - (place + 4)) := fun r hr hloc => by
    rw [relocationDelta, if_pos hr, hloc, hp]
    rfl
  split
  · next hfits =>
    refine settles_reference front hc ht hdelta fun r m hr => ?_
    obtain ⟨e, hword⟩ := relocatedWord_store_branch hr w
    exact ⟨_, hword.trans (if_pos hfits), rfl⟩
  · next hfits =>
    refine settles_reference front hc ht hdelta fun r m hr => ?_
    obtain ⟨e, hword⟩ := relocatedWord_store_branch hr w
    exact ⟨_, hword.trans (if_neg hfits), rfl⟩

end Settling

end Slot

end MipsToolchain
