import MipsToolchain.Proofs.Expr.Deferral
import MipsToolchain.Proofs.Expr.Storage

namespace MipsToolchain

open Guarded

namespace ExprArena

variable {a : ExprArena} {lo hi i : Nat} {p r : Option Nat} {e : Expr} {fs : List ExprFrame}

section Steps

theorem node_eq {n : ArenaNode} (h : a.nodes[i]? = some n) : a.node (some i) = .ok n := by
  rw [node, Option.bind_some, h]

theorem getElem?_of_node {n : ArenaNode} (h : a.node (some i) = .ok n) : a.nodes[i]? = some n := by
  rw [node, Option.bind_some] at h
  split at h
  · next hn =>
    cases h
    exact hn
  · cases h

theorem update_eq (h : i < a.nodes.length) (g : ArenaNode → ArenaNode) :
    a.update (some i) g = .ok { a with nodes := a.nodes.modify i g } := if_pos h

theorem liftOk_bind {α β : Type} (v : α) (g : α → Guarded β) :
    ((liftM (Except.ok v : Except Fault α) : Guarded α) >>= g) = g v := pure_bind v g

theorem lift_bind_eq_ok {α β : Type} {x : Except Fault α} {g : α → Guarded β} {s : Reported β} :
    ((liftM x : Guarded α) >>= g) = .ok s ↔ ∃ v, x = .ok v ∧ g v = .ok s := by
  cases x with
  | error f => exact ⟨nofun, nofun⟩
  | ok v =>
    rw [liftOk_bind]
    exact ⟨fun h => ⟨v, rfl, h⟩, fun ⟨_, hv, h⟩ => Except.ok.inj hv ▸ h⟩

theorem attach_spec (h : Spine a.nodes none a.nodes.length a.active fs a.root) (item : ExprItem)
    (t : Token) :
    ∃ b, (a.alloc { item, token := t }).attach a.nodes.length = .ok b ∧
      b.nodes.length = a.nodes.length + 1 ∧ b.failed = a.failed ∧
      b.nodes[a.nodes.length]? = some { item, token := t, parent := a.active } ∧
      Spine b.nodes (some a.nodes.length) a.nodes.length a.active fs b.root := by
  obtain ⟨ns, root, active, expecting, failed⟩ := a
  dsimp only at h ⊢
  let fresh : ArenaNode := { item, token := t }
  -- Either there is nothing yet, or the innermost frame has a slot for the new node.
  rcases h.innermost with ⟨rfl, hlen, rfl, rfl⟩ | ⟨k, rfl, hlen, hroot⟩
  · rw [hlen] at h ⊢
    refine ⟨_, rfl, ?_, rfl, ?_, .nil⟩
    · rw [alloc, List.length_append, hlen, List.length_singleton]
    · rw [alloc, ← hlen, List.getElem?_concat_length]
  · obtain ⟨top, rfl⟩ := Option.isSome_iff_exists.mp hroot
    let ns₁ := (ns ++ [fresh]).modify ns.length ({ · with parent := some k })
    have hlen₁ : ns₁.length = ns.length + 1 := by simp [ns₁]
    have hold : Agree ns ns₁ 0 ns.length :=
      (Agree.append ns [fresh] 0).trans (.modify _ _ (.inr (Nat.le_refl _)))
    have hnew : ns₁[ns.length]? = some { fresh with parent := some k } :=
      getElem?_modify_self List.getElem?_concat_length _
    have hparent : (alloc ⟨ns, some top, some k, expecting, failed⟩ fresh).update (some ns.length)
        ({ · with parent := some k }) = .ok ⟨ns₁, some top, some k, expecting, failed⟩ :=
      update_eq (by simp [alloc]) _
    obtain ⟨n, hn, -, hspine⟩ := h.refill hold
    refine ⟨⟨ns₁.modify k (·.fill n.isBinary ns.length), some top, some k, expecting, failed⟩,
      ?_, ?_, rfl, ?_, hspine _⟩
    · refine except_bind_eq_ok.mpr ⟨_, hparent, except_bind_eq_ok.mpr ⟨n, node_eq hn, ?_⟩⟩
      exact update_eq (by dsimp only; omega) _
    · rw [List.length_modify, hlen₁]
    · exact (Agree.modify ns₁ _ (.inl (hlen ▸ Nat.lt_succ_self k)) ns.length (Nat.le_refl _)
        (Nat.lt_succ_self _)).trans hnew

/-- The walk up closes the frames that hold their operand more tightly, as places in the arena. -/
theorem climb_spec (c fuel : Nat) (hfuel : fs.length ≤ fuel)
    (hs : Spine a.nodes (some i) lo p fs r) (he : Stored a.nodes lo hi i p e) :
    ∃ lo' i' p', a.climb c fuel (some i) p = .ok (some i', p') ∧
      Stored a.nodes lo' hi i' p' (ExprBuilder.climb c e fs).1 ∧
      Spine a.nodes (some i') lo' p' (ExprBuilder.climb c e fs).2 r := by
  induction fs generalizing fuel lo i p e with
  | nil =>
    cases hs with
    | nil => exact ⟨_, _, _, by cases fuel <;> rfl, he, .nil⟩
  | cons f fs ih =>
    cases hs with
    | @cons _ q _ lo' k _ _ hf hs =>
      obtain ⟨fuel, rfl⟩ := Nat.exists_eq_add_of_le' (Nat.lt_of_lt_of_le (Nat.succ_pos _) hfuel)
      obtain ⟨n, hn, rfl, -, hopen, hheld, -⟩ := hf.node
      rw [climb, node_eq hn, ExprBuilder.climb]
      dsimp only [bind, Except.bind]
      rw [hopen]
      cases hc : f.precedence? with
      | none => exact ⟨_, _, _, rfl, he, .cons hf hs⟩
      | some held =>
        rw [hheld held hc]
        simp only [Option.isNone_some, Bool.false_eq_true, if_false]
        split
        · exact ih _ (Nat.le_of_succ_le_succ hfuel) hs (hf.stored (hc ▸ rfl) he)
        · exact ⟨_, _, _, rfl, he, .cons hf hs⟩

theorem splice_spec (hs : Spine a.nodes (some i) lo p fs a.root)
    (he : Stored a.nodes lo a.nodes.length i p e) (op : BinaryOperator) (t : Token) :
    ∃ b, a.splice op t (some i) p = .ok b ∧ b.nodes.length = a.nodes.length + 1 ∧
      b.failed = a.failed ∧
      Spine b.nodes none b.nodes.length (some a.nodes.length) (.binary op t e :: fs) b.root := by
  obtain ⟨ns, root, active, expecting, failed⟩ := a
  dsimp only at hs he ⊢
  have hi := he.bounds
  -- The operator becomes the newest node, and the operand that was there goes below it.
  let fresh : ArenaNode :=
    { item := .operator (.binary op), token := t, parent := p, left := some i }
  let ns₁ := (ns ++ [fresh]).modify i ({ · with parent := some ns.length })
  have hlen₁ : ns₁.length = ns.length + 1 := by simp [ns₁]
  have hchild : (alloc ⟨ns, root, active, expecting, failed⟩ fresh).update (some i)
      ({ · with parent := some ns.length }) = .ok ⟨ns₁, root, active, expecting, failed⟩ :=
    update_eq (by simp [alloc]; omega) _
  have hnew : ns₁[ns.length]? = some fresh :=
    (Agree.modify (ns ++ [fresh]) _ (.inl hi.2) ns.length (Nat.le_refl _)
      (Nat.lt_succ_self _)).trans List.getElem?_concat_length
  have hold : Agree ns ns₁ 0 i :=
    ((Agree.append ns [fresh] 0).mono (Nat.le_refl _) (Nat.le_of_lt hi.2)).trans
      (.modify _ _ (.inr (Nat.le_refl _)))
  have he₁ : Stored ns₁ lo ns.length i (some ns.length) e := by
    refine he.reparent (hold.mono (Nat.zero_le _) (Nat.le_refl _)) ?_ ?_
    · exact ((Agree.append ns [fresh] 0).mono (Nat.zero_le _) (Nat.le_refl _)).trans
        (.modify _ _ (.inl (Nat.lt_succ_self _)))
    · obtain ⟨n, hn, -⟩ := he.top
      rw [hn]
      exact getElem?_modify_self ((Agree.append ns [fresh] 0 i (Nat.zero_le _) hi.2).trans hn) _
  -- Above the operator is either nothing, so that it is the root, or the slot that its operand had.
  rcases hs.innermost with ⟨rfl, rfl, rfl, rfl⟩ | ⟨k, rfl, rfl, -⟩
  · exact ⟨_, except_bind_eq_ok.mpr ⟨_, hchild, rfl⟩, hlen₁, rfl,
      hlen₁ ▸ .cons (.binary hnew he₁) .nil⟩
  · obtain ⟨n, hn, hright, hspine⟩ := hs.refill (hold.mono (Nat.le_refl _) hi.1)
    have hslot : (n.right == some i) = n.isBinary := by
      rw [hright]
      cases n.isBinary <;> simp
    let ns₂ := ns₁.modify k (·.fill (n.right == some i) ns.length)
    have hlen₂ : ns₂.length = ns.length + 1 := (List.length_modify ..).trans hlen₁
    have hrest : Agree ns₁ ns₂ (k + 1) (ns.length + 1) := .modify _ _ (.inl (Nat.lt_succ_self k))
    refine ⟨⟨ns₂, root, active, expecting, failed⟩, ?_, hlen₂, rfl, ?_⟩
    · refine except_bind_eq_ok.mpr ⟨_, hchild, except_bind_eq_ok.mpr ⟨n, node_eq hn, ?_⟩⟩
      exact update_eq (by dsimp only; omega) _
    · rw [hlen₂]
      refine .cons (.binary ((hrest _ (by omega) (Nat.lt_succ_self _)).trans hnew)
        (he₁.congr (hrest.mono (Nat.le_refl _) (Nat.le_succ _)))) ?_
      have hfilled := hspine ns.length
      rwa [← hslot] at hfilled

theorem openGroup?_spec (fuel : Nat) (hfuel : fs.length ≤ fuel)
    (hs : Spine a.nodes (some i) lo p fs r) (he : Stored a.nodes lo hi i p e) :
    match ExprBuilder.closeTo e fs with
    | none => a.openGroup? fuel p = .ok none
    | some (g, fs') => ∃ k q, a.openGroup? fuel p = .ok (some k) ∧ k < hi ∧
        Stored (a.nodes.modify k ({ · with closed := true })) k hi k q g ∧
        Spine (a.nodes.modify k ({ · with closed := true })) (some k) k q fs' r := by
  induction fs generalizing fuel lo i p e with
  | nil =>
    cases hs with
    | nil => cases fuel <;> rfl
  | cons f fs ih =>
    cases hs with
    | @cons _ q _ lo' k _ _ hf hs =>
      obtain ⟨fuel, rfl⟩ := Nat.exists_eq_add_of_le' (Nat.lt_of_lt_of_le (Nat.succ_pos _) hfuel)
      obtain ⟨n, hn, rfl, -, hopen, -⟩ := hf.node
      have hk := he.bounds
      rw [openGroup?, node_eq hn]
      dsimp only [bind, Except.bind]
      rw [hopen]
      have hstep := fun h => ih _ (Nat.le_of_succ_le_succ hfuel) hs (hf.stored h he)
      cases hf with
      | unary | binary => exact hstep rfl
      | group hn' =>
        refine ⟨_, n.parent, rfl, by omega, ?_, ?_⟩
        · exact .group (getElem?_modify_self hn' _)
            (he.congr (.modify _ _ (.inl (Nat.lt_succ_self _))))
        · exact hs.congr (.modify _ _ (.inr (Nat.le_refl _)))

end Steps

/-- An arena holds what a builder holds: the frames around a slot, or around an operand that is
complete, with all nodes in their order. -/
inductive Represents : ExprArena → ExprBuilder → Prop
  | slot {ns : List ArenaNode} {active root : Option Nat} {spine : List ExprFrame} {failed : Bool} :
      Spine ns none ns.length active spine root →
      Represents ⟨ns, root, active, true, failed⟩ ⟨spine, none, failed⟩
  | operand {ns : List ArenaNode} {lo i : Nat} {p root : Option Nat} {e : Expr}
      {spine : List ExprFrame} {failed : Bool} :
      Stored ns lo ns.length i p e → Spine ns (some i) lo p spine root →
      Represents ⟨ns, root, some i, false, failed⟩ ⟨spine, some e, failed⟩

namespace Represents

variable {b : ExprBuilder}

theorem empty : Represents .empty .empty := .slot .nil

theorem expecting_eq (h : Represents a b) : a.expecting = b.expecting := by
  cases h <;> rfl

theorem fail (h : Represents a b) :
    Represents { a with failed := true } { b with failed := true } := by
  cases h with
  | slot hs => exact .slot hs
  | operand he hs => exact .operand he hs

/-- An item was taken by both or by neither, and both hold the same after it. -/
def Added (x : Bool × ExprArena) (y : Bool × ExprBuilder) : Prop := x.1 = y.1 ∧ Represents x.2 y.2

theorem parallel_reject (h : Represents a b) (t : Token) :
    Parallel Added (liftM (a.reject t)) (liftM (b.reject t)) :=
  ⟨_, _, _, rfl, rfl, rfl, h.fail⟩

theorem parallel_addOperand {ns : List ArenaNode} {active root : Option Nat} {failed : Bool}
    (h : Spine ns none ns.length active fs root) (item : ExprItem) (t : Token) (pending : Bool)
    (hb : ∀ ns' root', ns'.length = ns.length + 1 →
      ns'[ns.length]? = some { item, token := t, parent := active } →
      Spine ns' (some ns.length) ns.length active fs root' →
      Represents ⟨ns', root', some ns.length, pending, failed⟩ b) :
    Parallel Added (addOperand ⟨ns, root, active, true, failed⟩ item t pending)
      (liftM b.accept) := by
  obtain ⟨a', ha', hlen, hfailed, hn, hs⟩ :=
    attach_spec (a := ⟨ns, root, active, true, failed⟩) h item t
  refine ⟨_, _, [], bind_eq_ok.mpr ⟨_, _, liftExcept_eq_ok.mpr ⟨a', ha', rfl⟩, rfl, rfl⟩, rfl, rfl, ?_⟩
  dsimp only at hfailed
  rw [hfailed]
  exact hb _ _ hlen hn hs

theorem parallel_addInfix {ns : List ArenaNode} {root : Option Nat} {failed : Bool}
    (he : Stored ns lo ns.length i p e) (hs : Spine ns (some i) lo p fs root)
    (op : BinaryOperator) (t : Token) :
    Parallel Added (addInfix ⟨ns, root, some i, false, failed⟩ op t)
      (liftM (ExprBuilder.add ⟨fs, some e, failed⟩ (.operator (.binary op)) t)) := by
  have hb := he.bounds
  have hfuel := hs.length_le
  obtain ⟨n, hn, rfl, -⟩ := he.top
  obtain ⟨lo', i', p', hclimb, he', hs'⟩ :=
    climb_spec (a := ⟨ns, root, some i, false, failed⟩) op.precedence ns.length (by omega) hs he
  obtain ⟨a', ha', hlen, hfailed, hsplice⟩ :=
    splice_spec (a := ⟨ns, root, some i, false, failed⟩) hs' he' op t
  have hadd : addInfix ⟨ns, root, some i, false, failed⟩ op t =
      .ok ⟨(true, { a' with active := some ns.length, expecting := true }), []⟩ := by
    refine bind_eq_ok.mpr ⟨⟨n, []⟩, ⟨_, []⟩, liftExcept_eq_ok.mpr ⟨n, node_eq hn, rfl⟩, ?_, rfl⟩
    refine bind_eq_ok.mpr ⟨⟨_, []⟩, ⟨_, []⟩, liftExcept_eq_ok.mpr ⟨_, hclimb, rfl⟩, ?_, rfl⟩
    exact bind_eq_ok.mpr ⟨⟨_, []⟩, ⟨_, []⟩, liftExcept_eq_ok.mpr ⟨a', ha', rfl⟩, rfl, rfl⟩
  refine ⟨_, _, [], hadd, rfl, rfl, ?_⟩
  dsimp only at hfailed ⊢
  rw [hfailed]
  exact .slot hsplice

theorem parallel_closeGroup {ns : List ArenaNode} {root : Option Nat} {failed : Bool}
    (he : Stored ns lo ns.length i p e) (hs : Spine ns (some i) lo p fs root) (t : Token) :
    Parallel Added (closeGroup ⟨ns, root, some i, false, failed⟩ t)
      (liftM (ExprBuilder.add ⟨fs, some e, failed⟩ .closeGroup t)) := by
  have hb := he.bounds
  have hfuel := hs.length_le
  obtain ⟨n, hn, rfl, hopen⟩ := he.top
  have hpos : 1 ≤ ns.length := by omega
  -- The walk starts at the operand itself, which is no group that is open, and so takes one step
  -- more.
  obtain ⟨fuel, hlen⟩ := Nat.exists_eq_add_of_le' hpos
  have hwalk : openGroup? ⟨ns, root, some i, false, failed⟩ ns.length (some i) =
      openGroup? ⟨ns, root, some i, false, failed⟩ fuel n.parent := by
    rw [hlen, openGroup?, node_eq hn]
    dsimp only [bind, Except.bind]
    rw [hopen]
    rfl
  have hframes : fs.length ≤ fuel := by omega
  have hgroup := openGroup?_spec (a := ⟨ns, root, some i, false, failed⟩) fuel hframes hs he
  rw [closeGroup, if_neg Bool.false_ne_true, hwalk]
  unfold ExprBuilder.add
  dsimp only
  cases hclose : ExprBuilder.closeTo e fs with
  | none =>
    rw [hclose] at hgroup
    dsimp only at hgroup
    rw [hgroup]
    exact ⟨_, _, _, rfl, rfl, rfl, .operand he hs⟩
  | some g =>
    rw [hclose] at hgroup
    obtain ⟨k, q, hfound, hk, hg, hs'⟩ := hgroup
    rw [hfound]
    have hset := update_eq (a := ⟨ns, root, some i, false, failed⟩) hk ({ · with closed := true })
    refine ⟨(true, ⟨ns.modify k ({ · with closed := true }), root, some k, false, failed⟩), _, [],
      ?_, rfl, rfl, ?_⟩
    · refine bind_eq_ok.mpr ⟨⟨some k, []⟩, ⟨_, []⟩, rfl, ?_, rfl⟩
      exact bind_eq_ok.mpr ⟨⟨_, []⟩, ⟨_, []⟩, liftExcept_eq_ok.mpr ⟨_, hset, rfl⟩, rfl, rfl⟩
    · exact .operand (by rw [List.length_modify]; exact hg) hs'

theorem parallel_add (h : Represents a b) (item : ExprItem) (t : Token) :
    Parallel Added (a.add item t) (liftM (b.add item t)) := by
  cases h with
  | slot hs =>
    cases item with
    | integer v =>
      refine parallel_addOperand hs _ t false fun ns' root' hlen hn hs' => ?_
      exact .operand (hlen ▸ .integer hn) hs'
    | symbol s =>
      refine parallel_addOperand hs _ t false fun ns' root' hlen hn hs' => ?_
      exact .operand (hlen ▸ .symbol hn) hs'
    | openGroup =>
      refine parallel_addOperand hs _ t true fun ns' root' hlen hn hs' => ?_
      exact .slot (hlen ▸ .cons (.group hn) hs')
    | closeGroup => exact (Represents.slot hs).parallel_reject t
    | operator op =>
      cases op with
      | unary op =>
        refine parallel_addOperand hs _ t true fun ns' root' hlen hn hs' => ?_
        exact .slot (hlen ▸ .cons (.unary hn) hs')
      | binary op => exact (Represents.slot hs).parallel_reject t
  | operand he hs =>
    cases item with
    | integer | symbol | openGroup => exact (Represents.operand he hs).parallel_reject t
    | closeGroup => exact parallel_closeGroup he hs t
    | operator op =>
      cases op with
      | unary op => exact (Represents.operand he hs).parallel_reject t
      | binary op => exact parallel_addInfix he hs op t

theorem parallel_addToken (h : Represents a b) (t : Token) :
    Parallel Represents (a.addToken t) (liftM (Expr.addToken b t)) := by
  rw [addToken, Expr.addToken, h.expecting_eq]
  cases Expr.item? t b.expecting with
  | some item => exact (h.parallel_add item t).bind fun _ _ hadd => .pure hadd.2
  | none => exact (h.parallel_reject t).bind fun _ _ hadd => .pure hadd.2

theorem parallel_addTokens (h : Represents a b) (ts : List Token) :
    Parallel Represents (a.addTokens ts) (liftM (Expr.addTokens b ts)) := by
  induction ts generalizing a b with
  | nil => exact .pure h
  | cons t ts ih => exact (h.parallel_addToken t).bind fun _ _ hrest => ih hrest

end Represents

section Finishing

def Holds (a : ExprArena) (e : Expr) : Prop :=
  ∃ i, a.root = some i ∧ Stored a.nodes 0 a.nodes.length i none e

theorem Spine.closeAll {ns : List ArenaNode} (hs : Spine ns (some i) lo p fs r)
    (he : Stored ns lo hi i p e) (hclosed : fs.filterMap ExprFrame.groupToken? = []) :
    ∃ j, r = some j ∧ Stored ns 0 hi j none (ExprBuilder.closeAll e fs) := by
  induction fs generalizing lo i p e with
  | nil =>
    cases hs with
    | nil => exact ⟨i, rfl, he⟩
  | cons f fs ih =>
    cases hs with
    | cons hf hs =>
      rw [List.filterMap_cons] at hclosed
      cases f with
      | group => cases hclosed
      | unary | binary => exact ih hs (hf.stored rfl he) hclosed

theorem Spine.lastLocation {ns : List ArenaNode} (h : Spine ns none ns.length p fs r) :
    ns.getLast?.map (·.token.location) = fs.head?.map (·.token.location) := by
  rw [List.getLast?_eq_getElem?]
  generalize hlen : ns.length = len at h ⊢
  cases h with
  | nil =>
    rw [List.length_eq_zero_iff.mp hlen]
    rfl
  | cons hf =>
    obtain ⟨n, hn, -, ht, -⟩ := hf.node
    rw [Nat.add_sub_cancel, hn]
    exact congrArg (fun t => some t.location) ht

def Finishes (a : ExprArena) (done : Bool) (e? : Option Expr) : Prop :=
  done = e?.isSome ∧ ∀ e ∈ e?, a.Holds e

theorem finishes_none (a : ExprArena) : a.Finishes false none :=
  ⟨rfl, fun e h => absurd h (Option.not_mem_none e)⟩

theorem finishes_some (h : a.Holds e) : a.Finishes true (some e) :=
  ⟨rfl, fun _ he => Option.some.inj he ▸ h⟩

theorem Represents.parallel_build {b : ExprBuilder} (h : Represents a b)
    (place : Source.Location) :
    Parallel a.Finishes (liftM (a.build place)) (liftM (b.build place)) := by
  cases h with
  | @slot ns active root spine failed hs =>
    cases failed with
    | true => exact ⟨_, _, _, rfl, rfl, finishes_none _⟩
    | false =>
      have hplace := hs.lastLocation
      simp only [build, ExprBuilder.build, Bool.or_true, if_true, Bool.false_eq_true, if_false,
        hplace]
      exact ⟨_, _, _, rfl, rfl, finishes_none _⟩
  | @operand ns lo i p root e spine failed he hs =>
    cases failed with
    | true => exact ⟨_, _, _, rfl, rfl, finishes_none _⟩
    | false =>
      obtain ⟨top, rfl⟩ := Option.isSome_iff_exists.mp hs.root_isSome
      have htoken : (ns.find? ArenaNode.isOpenGroup).map (·.token) =
          (spine.filterMap ExprFrame.groupToken?).getLast? := by
        rw [← hs.openToken_eq, ← he.openToken_eq, openToken, List.take_length]
      simp only [build, ExprBuilder.build, Option.isNone_some, Bool.or_false, Bool.false_eq_true,
        if_false, ← htoken]
      cases hfind : ns.find? ArenaNode.isOpenGroup with
      | some n => exact ⟨_, _, _, rfl, rfl, finishes_none _⟩
      | none =>
        rw [hfind] at htoken
        have hholds := hs.closeAll he (List.getLast?_eq_none_iff.mp htoken.symm)
        exact ⟨_, _, _, rfl, rfl, finishes_some hholds⟩

theorem Stored.evalAt (h : Stored a.nodes lo hi i p e) (ctx : EvalContext) {fuel : Nat}
    (hfuel : hi ≤ lo + fuel) : a.evalAt ctx fuel (some i) = e.eval ctx := by
  induction fuel generalizing lo hi i p e with
  | zero =>
    have hb := h.bounds
    omega
  | succ fuel ih =>
    cases h with
    | integer hn => rw [ExprArena.evalAt, node_eq hn, liftOk_bind, Expr.eval]
    | symbol hn => rw [ExprArena.evalAt, node_eq hn, liftOk_bind]
    | unary hn he | group hn he =>
      rw [ExprArena.evalAt, node_eq hn, liftOk_bind]
      dsimp only
      rw [ih he (by omega)]
      rfl
    | binary hn hl hr =>
      have hbl := hl.bounds
      have hbr := hr.bounds
      rw [ExprArena.evalAt, node_eq hn, liftOk_bind]
      dsimp only
      rw [ih hl (by omega), ih hr (by omega)]
      rfl

theorem Holds.eval (h : a.Holds e) (ctx : EvalContext) : a.eval ctx = e.eval ctx := by
  obtain ⟨i, hi, he⟩ := h
  rw [ExprArena.eval, hi]
  exact he.evalAt ctx (by omega)

/-- An expression that grows in place has the value that the same tokens have as an expression
between frames. No place is ever out of range on the way, and every walk comes to its end. -/
theorem evaluate_eq (tokens : List Token) (place : Source.Location) (ctx : EvalContext) :
    evaluate tokens place ctx = (do
      match ← Expr.parse tokens place with
      | some e => e.eval ctx
      | none => pure none) := by
  have hrun : evaluate tokens place ctx = addTokens .empty tokens >>= fun a =>
      liftM (a.build place) >>= fun done => if done then a.eval ctx else pure none := rfl
  have hparse : (liftM (Expr.parse tokens place) : Guarded _) =
      liftM (Expr.addTokens .empty tokens) >>= fun b => liftM (b.build place) := rfl
  rw [hrun, hparse, bind_assoc]
  refine (Represents.empty.parallel_addTokens tokens).bind_eq fun a b hab => ?_
  refine (hab.parallel_build place).bind_eq fun done e? hdone => ?_
  obtain ⟨rfl, hholds⟩ := hdone
  cases e? with
  | none => rfl
  | some e => exact (hholds e rfl).eval ctx

end Finishing

end ExprArena

end MipsToolchain
