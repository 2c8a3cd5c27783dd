import Mathlib.Logic.ExistsUnique
import Mathlib.Logic.Relation
import MipsToolchain.Proofs.Expr.Arena

namespace MipsToolchain

open Guarded Relation

/-- Whether an operand has to follow an item. -/
def ExprItem.awaitsOperand : ExprItem → Bool
  | .operator _ | .openGroup => true
  | .integer _ | .symbol _ | .closeGroup => false

namespace ArenaNode

/-- What a node says, apart from its links. -/
def content (n : ArenaNode) : ExprItem × Token × Bool := (n.item, n.token, n.closed)

theorem content_fill (n : ArenaNode) (right : Bool) (child : Nat) :
    (n.fill right child).content = n.content := by
  unfold fill
  split <;> rfl

def arity (n : ArenaNode) : Nat :=
  match n.item with
  | .operator (.binary _) => 2
  | .operator (.unary _) | .openGroup => 1
  | _ => 0

/-- Whether a node has a slot on one side. A single slot is on the left. -/
def hasSlot (n : ArenaNode) (right : Bool) : Bool := if right then n.arity == 2 else n.arity != 0

def child (n : ArenaNode) (right : Bool) : Option Nat := if right then n.right else n.left

/-- Operators and open groups can be above the place where an expression grows. -/
def isAbove (n : ArenaNode) : Bool :=
  n.isOpenGroup || match n.item with
    | .operator _ => true
    | _ => false

theorem isBinary_eq (n : ArenaNode) : n.isBinary = (n.arity == 2) := by
  unfold isBinary arity
  split <;> rename_i h
  · rw [h]
    rfl
  · split
    · next op hop => exact absurd hop (h op)
    all_goals rfl

end ArenaNode

namespace ExprArena

section Trees

def At (ns : List ArenaNode) (i arity : Nat) (p left right : Option Nat) : Prop :=
  ∃ n, ns[i]? = some n ∧ n.arity = arity ∧ n.parent = p ∧ n.left = left ∧ n.right = right

/-- A tree of the nodes from `lo` up to `hi`, with its top at `i`, which refers to `p`. There may be
one node with an empty slot, its last. -/
inductive Tree (ns : List ArenaNode) (hole : Option Nat) : Nat → Nat → Nat → Option Nat → Prop
  | leaf {lo : Nat} {p : Option Nat} : At ns lo 0 p none none → Tree ns hole lo (lo + 1) lo p
  | single {lo hi j : Nat} {p : Option Nat} : At ns lo 1 p (some j) none →
      Tree ns hole (lo + 1) hi j (some lo) → Tree ns hole lo hi lo p
  | openSingle {lo : Nat} {p : Option Nat} : At ns lo 1 p none none → hole = some lo →
      Tree ns hole lo (lo + 1) lo p
  | double {lo hi i j k : Nat} {p : Option Nat} : At ns i 2 p (some j) (some k) →
      Tree ns hole lo i j (some i) → Tree ns hole (i + 1) hi k (some i) → Tree ns hole lo hi i p
  | openDouble {lo i j : Nat} {p : Option Nat} : At ns i 2 p (some j) none → hole = some i →
      Tree ns hole lo i j (some i) → Tree ns hole lo (i + 1) i p

def Below (ns : List ArenaNode) (i p : Nat) : Prop := ∃ n, ns[i]? = some n ∧ n.parent = some p

def Above (ns : List ArenaNode) (p i : Nat) : Prop :=
  ∃ n right, ns[p]? = some n ∧ n.child right = some i

/-- A node with what its slots refer to: nodes that refer back, two different ones. -/
structure Linked (ns : List ArenaNode) (hole : Option Nat) (i : Nat) (n : ArenaNode) : Prop where
  children : ∀ right c, n.child right = some c → n.hasSlot right ∧ Below ns c i
  slots : ∀ right, n.hasSlot right → n.child right = none → hole = some i ∧ right = n.isBinary
  apart : ∀ c, n.child false = some c → n.child true ≠ some c

variable {ns : List ArenaNode} {hole slot p r : Option Nat} {lo hi i k : Nat} {e : Expr}
  {f : ExprFrame} {fs : List ExprFrame}

theorem At.linked {n : ArenaNode} {a : Nat} {left right : Option Nat} (h : At ns i a p left right)
    (hn : ns[i]? = some n) (hleft : ∀ c, left = some c → a ≠ 0 ∧ Below ns c i ∧ right ≠ some c)
    (hright : ∀ c, right = some c → a = 2 ∧ Below ns c i)
    (hnone : a ≠ 0 → left = none → hole = some i ∧ a ≠ 2)
    (hnone' : a = 2 → right = none → hole = some i) : Linked ns hole i n := by
  obtain ⟨m, hm, rfl, -, rfl, rfl⟩ := h
  cases hn.symm.trans hm
  refine ⟨fun side c hc => ?_, fun side hside hc => ?_, fun c hc => (hleft c hc).2.2⟩
  · cases side with
    | false => exact ⟨by simpa [ArenaNode.hasSlot] using (hleft c hc).1, (hleft c hc).2.1⟩
    | true => exact ⟨by simpa [ArenaNode.hasSlot] using (hright c hc).1, (hright c hc).2⟩
  · rw [n.isBinary_eq]
    cases side with
    | false =>
      obtain ⟨hhole, harity⟩ := hnone (by simpa [ArenaNode.hasSlot] using hside) hc
      exact ⟨hhole, by simp [harity]⟩
    | true =>
      have harity : n.arity = 2 := by simpa [ArenaNode.hasSlot] using hside
      exact ⟨hnone' harity hc, by simp [harity]⟩

namespace Tree

theorem bounds (h : Tree ns hole lo hi i p) : lo ≤ i ∧ i < hi := by
  induction h with
  | leaf | openSingle => omega
  | single _ _ ih => omega
  | double _ _ _ ihl ihr => omega
  | openDouble _ _ _ ih => omega

theorem top (h : Tree ns hole lo hi i p) : ∃ n, ns[i]? = some n ∧ n.parent = p := by
  cases h with
  | leaf hn | single hn | openSingle hn | double hn | openDouble hn =>
    obtain ⟨n, hn, -, hp, -⟩ := hn
    exact ⟨n, hn, hp⟩

theorem linked (h : Tree ns hole lo hi i p) {n : ArenaNode} (hlo : lo ≤ k) (hhi : k < hi)
    (hn : ns[k]? = some n) : Linked ns hole k n := by
  -- The place of the node says in which part of the tree it is.
  induction h with
  | @leaf lo p hat =>
    obtain rfl : k = lo := by omega
    exact hat.linked hn nofun nofun nofun nofun
  | @single lo hi j p hat ht ih =>
    rcases Nat.lt_or_eq_of_le hlo with hlt | rfl
    · exact ih hlt hhi
    · refine hat.linked hn ?_ nofun nofun nofun
      rintro c ⟨rfl⟩
      exact ⟨Nat.one_ne_zero, ht.top, nofun⟩
  | @openSingle lo p hat hhole =>
    obtain rfl : k = lo := by omega
    exact hat.linked hn nofun nofun (fun _ _ => ⟨hhole, by decide⟩) nofun
  | @double lo hi i j m p hat hl hr ihl ihr =>
    rcases Nat.lt_trichotomy k i with hlt | rfl | hgt
    · exact ihl hlo hlt
    · have hbl := hl.bounds
      have hbr := hr.bounds
      refine hat.linked hn ?_ ?_ nofun nofun
      · rintro c ⟨rfl⟩
        exact ⟨by decide, hl.top, fun hc => by cases hc; omega⟩
      · rintro c ⟨rfl⟩
        exact ⟨rfl, hr.top⟩
    · exact ihr hgt hhi
  | @openDouble lo i j p hat hhole hl ihl =>
    rcases Nat.lt_or_eq_of_le (Nat.le_of_lt_succ hhi) with hlt | rfl
    · exact ihl hlo hlt
    · refine hat.linked hn ?_ nofun nofun fun _ _ => hhole
      rintro c ⟨rfl⟩
      exact ⟨by decide, hl.top, nofun⟩

theorem reaches (h : Tree ns hole lo hi i p) (hlo : lo ≤ k) (hhi : k < hi) :
    ReflTransGen (Above ns) i k := by
  have hleft {i a j : Nat} {p right : Option Nat} (hat : At ns i a p (some j) right) :
      Above ns i j := by
    obtain ⟨n, hn, -, -, hl, -⟩ := hat
    exact ⟨n, false, hn, hl⟩
  have hright {i a j : Nat} {p left : Option Nat} (hat : At ns i a p left (some j)) :
      Above ns i j := by
    obtain ⟨n, hn, -, -, -, hr⟩ := hat
    exact ⟨n, true, hn, hr⟩
  induction h with
  | @leaf lo p hat =>
    obtain rfl : k = lo := by omega
    exact .refl
  | @single lo hi j p hat ht ih =>
    rcases Nat.lt_or_eq_of_le hlo with hlt | rfl
    · exact .head (hleft hat) (ih hlt hhi)
    · exact .refl
  | @openSingle lo p hat hhole =>
    obtain rfl : k = lo := by omega
    exact .refl
  | @double lo hi i j m p hat hl hr ihl ihr =>
    rcases Nat.lt_trichotomy k i with hlt | rfl | hgt
    · exact .head (hleft hat) (ihl hlo hlt)
    · exact .refl
    · exact .head (hright hat) (ihr hgt hhi)
  | @openDouble lo i j p hat hhole hl ihl =>
    rcases Nat.lt_or_eq_of_le (Nat.le_of_lt_succ hhi) with hlt | rfl
    · exact .head (hleft hat) (ihl hlo hlt)
    · exact .refl

end Tree

theorem Stored.tree (h : Stored ns lo hi i p e) : Tree ns hole lo hi i p := by
  induction h with
  | integer hn | symbol hn => exact .leaf ⟨_, hn, rfl, rfl, rfl, rfl⟩
  | unary hn _ ih | group hn _ ih => exact .single ⟨_, hn, rfl, rfl, rfl, rfl⟩ ih
  | binary hn _ _ ihl ihr => exact .double ⟨_, hn, rfl, rfl, rfl, rfl⟩ ihl ihr

theorem Framed.tree (h : Framed ns (some i) lo k p f) (ht : Tree ns hole (k + 1) hi i (some k)) :
    Tree ns hole lo hi k p := by
  cases h with
  | unary hn | group hn => exact .single ⟨_, hn, rfl, rfl, rfl, rfl⟩ ht
  | binary hn hl => exact .double ⟨_, hn, rfl, rfl, rfl, rfl⟩ hl.tree ht

theorem Framed.openTree (h : Framed ns none lo k p f) : Tree ns (some k) lo (k + 1) k p := by
  cases h with
  | unary hn | group hn => exact .openSingle ⟨_, hn, rfl, rfl, rfl, rfl⟩ rfl
  | binary hn hl => exact .openDouble ⟨_, hn, rfl, rfl, rfl, rfl⟩ rfl hl.tree

theorem Spine.tree (h : Spine ns (some i) lo p fs r) (ht : Tree ns hole lo hi i p) :
    ∃ top, r = some top ∧ Tree ns hole 0 hi top none := by
  induction fs generalizing lo i p with
  | nil =>
    cases h with
    | nil => exact ⟨i, rfl, ht⟩
  | cons f fs ih =>
    cases h with
    | cons hf hs => exact ih hs (hf.tree ht)

theorem Spine.isAbove (h : Spine ns slot k p fs r) {m : Nat} (hp : p = some i)
    (hm : ReflTransGen (Below ns) i m) : ∃ n, ns[m]? = some n ∧ n.isAbove := by
  induction h generalizing i with
  | nil => cases hp
  | @cons slot q r lo k f fs hf hs ih =>
    cases hp
    obtain ⟨n, hn, hq, habove⟩ : ∃ n, ns[k]? = some n ∧ n.parent = q ∧ n.isAbove := by
      cases hf with
      | unary hn | group hn | binary hn => exact ⟨_, hn, rfl, rfl⟩
    rcases hm.cases_head with rfl | ⟨j, ⟨n', hn', hj⟩, hjm⟩
    · exact ⟨n, hn, habove⟩
    · cases hn.symm.trans hn'
      exact ih (hq.symm.trans hj) hjm

theorem Framed.slot_eq (h : Framed ns slot lo k p f) :
    ∃ n, ns[k]? = some n ∧ n.child n.isBinary = slot := by
  cases h with
  | unary hn | group hn | binary hn => exact ⟨_, hn, rfl⟩

end Trees

/-- The node that a path leads to from the root. A path is given from its last step on. -/
def descend (a : ExprArena) : List Bool → Option Nat
  | [] => a.root
  | right :: path => do
    let i ← a.descend path
    let n ← a.nodes[i]?
    n.child right

theorem descend_cons {a : ExprArena} {right : Bool} {path : List Bool} {k : Nat} :
    a.descend (right :: path) = some k ↔
      ∃ i n, a.descend path = some i ∧ a.nodes[i]? = some n ∧ n.child right = some k := by
  simp only [descend, Option.bind_eq_bind, Option.bind_eq_some_iff, exists_and_left]

/-- What is true of the nodes of an arena at any time. -/
structure WellFormed (a : ExprArena) : Prop where
  root_isNone : a.root = none ↔ a.nodes = []
  active_isNone : a.active = none ↔ a.nodes = []
  root : ∀ i, a.root = some i → ∃ n, a.nodes[i]? = some n ∧ n.parent = none
  children : ∀ i n right c, a.nodes[i]? = some n → n.child right = some c →
    n.hasSlot right ∧ Below a.nodes c i
  parents : ∀ i p, Below a.nodes i p → Above a.nodes p i
  reached : ∀ i < a.nodes.length, ∃! path, a.descend path = some i
  /-- Every slot is filled but the last one of the active node, where an operand is expected. -/
  slots : ∀ i n right, a.nodes[i]? = some n → n.hasSlot right →
    (n.child right = none ↔ a.expecting ∧ a.active = some i ∧ right = n.isBinary)
  /-- From the active node up to the root, there are only operators and open groups. -/
  walk : ∀ i, a.active = some i →
    (∃ top, a.root = some top ∧ ReflTransGen (Below a.nodes) i top) ∧
    ∀ k, TransGen (Below a.nodes) i k → ∃ n, a.nodes[k]? = some n ∧ n.isAbove

theorem Below.unique {ns : List ArenaNode} {i p q : Nat} (h : Below ns i p) (h' : Below ns i q) :
    p = q := by
  obtain ⟨n, hn, hp⟩ := h
  obtain ⟨m, hm, hq⟩ := h'
  cases hn.symm.trans hm
  exact Option.some.inj (hp.symm.trans hq)

structure Rooted (a : ExprArena) (hole : Option Nat) (top : Nat) : Prop where
  root : a.root = some top
  tree : Tree a.nodes hole 0 a.nodes.length top none

namespace Rooted

variable {a : ExprArena} {hole : Option Nat} {top i k : Nat} (h : a.Rooted hole top)
include h

theorem linked {n : ArenaNode} (hn : a.nodes[i]? = some n) : Linked a.nodes hole i n :=
  h.tree.linked (Nat.zero_le i) (List.getElem?_eq_some_iff.mp hn).1 hn

theorem below_of_above (hi : Above a.nodes i k) : Below a.nodes k i := by
  obtain ⟨n, right, hn, hc⟩ := hi
  exact ((h.linked hn).children right k hc).2

theorem not_below_root : ¬ Below a.nodes top i := by
  rintro ⟨n, hn, hp⟩
  obtain ⟨m, hm, hnone⟩ := h.tree.top
  cases hn.symm.trans hm
  cases hp.symm.trans hnone

theorem above_of_below (hi : Below a.nodes i k) : Above a.nodes k i := by
  have hlt : i < a.nodes.length := by
    obtain ⟨n, hn, -⟩ := hi
    exact (List.getElem?_eq_some_iff.mp hn).1
  rcases (h.tree.reaches (Nat.zero_le i) hlt).cases_tail with rfl | ⟨j, -, hj⟩
  · exact absurd hi h.not_below_root
  · exact (h.below_of_above hj).unique hi ▸ hj

theorem reaches_root (hi : i < a.nodes.length) : ReflTransGen (Below a.nodes) i top :=
  (h.tree.reaches (Nat.zero_le i) hi).swap.lift id fun _ _ hstep => h.below_of_above hstep

theorem exists_descend (hi : i < a.nodes.length) : ∃ path, a.descend path = some i := by
  have hreaches := h.tree.reaches (Nat.zero_le i) hi
  clear hi
  induction hreaches with
  | refl => exact ⟨[], h.root⟩
  | @tail i k _ hstep ih =>
    obtain ⟨path, hpath⟩ := ih
    obtain ⟨n, right, hn, hc⟩ := hstep
    exact ⟨right :: path, descend_cons.mpr ⟨i, n, hpath, hn, hc⟩⟩

/-- The path to a node is found backwards from its parent. -/
theorem descend_unique {path path' : List Bool} (hpath : a.descend path = some i)
    (hpath' : a.descend path' = some i) : path = path' := by
  have hinner {i : Nat} {right : Bool} {rest : List Bool}
      (hi : a.descend (right :: rest) = some i) : some i ≠ a.root := by
    obtain ⟨j, n, -, hn, hc⟩ := descend_cons.mp hi
    rintro hroot
    obtain rfl := Option.some.inj (hroot.trans h.root)
    exact h.not_below_root ((h.linked hn).children right i hc).2
  induction path generalizing i path' with
  | nil =>
    cases path' with
    | nil => rfl
    | cons right' rest' => exact absurd hpath.symm (hinner hpath')
  | cons right rest ih =>
    cases path' with
    | nil => exact absurd hpath'.symm (hinner hpath)
    | cons right' rest' =>
      obtain ⟨j, n, hj, hn, hc⟩ := descend_cons.mp hpath
      obtain ⟨j', n', hj', hn', hc'⟩ := descend_cons.mp hpath'
      obtain rfl := ((h.linked hn).children right i hc).2.unique
        ((h.linked hn').children right' i hc').2
      cases hn.symm.trans hn'
      have happart := (h.linked hn).apart i
      rw [ih hj hj']
      cases right <;> cases right'
      · rfl
      · exact absurd hc' (happart hc)
      · exact absurd hc (happart hc')
      · rfl

end Rooted

namespace Represents

variable {a : ExprArena} {b : ExprBuilder}

theorem rooted (h : Represents a b) (hne : a.nodes ≠ []) :
    ∃ top, a.Rooted (if a.expecting then a.active else none) top := by
  cases h with
  | @slot ns active root spine failed hs =>
    generalize hlen : ns.length = len at hs
    cases hs with
    | nil => exact absurd (List.length_eq_zero_iff.mp hlen) hne
    | cons hf hs =>
      obtain ⟨top, hroot, ht⟩ := hs.tree hf.openTree
      exact ⟨top, hroot, hlen ▸ ht⟩
  | @operand ns lo i p root e spine failed he hs =>
    have ht : Tree ns none lo ns.length i p := he.tree
    obtain ⟨top, hroot, ht⟩ := hs.tree ht
    exact ⟨top, hroot, ht⟩

theorem handles (h : Represents a b) :
    (a.root = none ↔ a.nodes = []) ∧ (a.active = none ↔ a.nodes = []) := by
  cases h with
  | @slot ns active root spine failed hs =>
    dsimp only
    rcases hs.innermost with ⟨rfl, hlen, -, rfl⟩ | ⟨i, rfl, hlen, hroot⟩
    · simp [List.length_eq_zero_iff.mp hlen]
    · obtain ⟨top, rfl⟩ := Option.isSome_iff_exists.mp hroot
      simp [List.ne_nil_of_length_eq_add_one hlen]
  | @operand ns lo i p root e spine failed he hs =>
    have hb := he.bounds
    obtain ⟨top, rfl⟩ := Option.isSome_iff_exists.mp hs.root_isSome
    have hne : ns ≠ [] := List.ne_nil_of_length_pos (by omega)
    simp [hne]

theorem active_lt (h : Represents a b) {i : Nat} (hi : a.active = some i) :
    i < a.nodes.length := by
  cases h with
  | @slot ns active root spine failed hs =>
    rcases hs.innermost with ⟨rfl, -⟩ | ⟨j, rfl, hlen, -⟩
    · cases hi
    · cases hi
      exact Nat.lt_of_lt_of_eq (Nat.lt_succ_self _) hlen.symm
  | operand he hs =>
    cases hi
    exact he.bounds.2

theorem isAbove_of_walk (h : Represents a b) {i k : Nat} (hi : a.active = some i)
    (hk : TransGen (Below a.nodes) i k) : ∃ n, a.nodes[k]? = some n ∧ n.isAbove := by
  cases h with
  | slot hs => exact hs.isAbove hi hk.to_reflTransGen
  | operand he hs =>
    cases hi
    obtain ⟨j, ⟨m, hm, hj⟩, hjk⟩ := TransGen.head'_iff.mp hk
    obtain ⟨n, hn, hp, -⟩ := he.top
    cases hn.symm.trans hm
    exact hs.isAbove (hp.symm.trans hj) hjk

theorem empty_slot (h : Represents a b) (hexpecting : a.expecting) {i : Nat}
    (hi : a.active = some i) : ∃ n, a.nodes[i]? = some n ∧ n.child n.isBinary = none := by
  cases h with
  | @slot ns active root spine failed hs =>
    generalize ns.length = len at hs
    cases hs with
    | nil => cases hi
    | cons hf _ =>
      cases hi
      exact hf.slot_eq
  | operand he hs => cases hexpecting

theorem wellFormed (h : Represents a b) : a.WellFormed := by
  have hrooted {i : Nat} {n : ArenaNode} (hn : a.nodes[i]? = some n) :
      ∃ top, a.Rooted (if a.expecting then a.active else none) top := by
    refine h.rooted ?_
    rintro hnil
    rw [hnil] at hn
    cases hn
  -- Every statement about a node is one about the tree that all nodes form.
  refine ⟨h.handles.1, h.handles.2, fun i hi => ?_, fun i n right c hn hc => ?_,
    fun i p hi => ?_, fun i hi => ?_, fun i n right hn hslot => ⟨fun hc => ?_, ?_⟩,
    fun i hi => ⟨?_, fun k => h.isAbove_of_walk hi⟩⟩
  · obtain ⟨top, hr⟩ := h.rooted fun hnil => by simp [h.handles.1.mpr hnil] at hi
    cases hi.symm.trans hr.root
    exact hr.tree.top
  · obtain ⟨top, hr⟩ := hrooted hn
    exact (hr.linked hn).children right c hc
  · obtain ⟨n, hn, hp⟩ := hi
    obtain ⟨top, hr⟩ := hrooted hn
    exact hr.above_of_below ⟨n, hn, hp⟩
  · obtain ⟨top, hr⟩ := hrooted (List.getElem?_eq_getElem hi)
    obtain ⟨path, hpath⟩ := hr.exists_descend hi
    exact ⟨path, hpath, fun path' hpath' => hr.descend_unique hpath' hpath⟩
  · obtain ⟨top, hr⟩ := hrooted hn
    obtain ⟨hhole, hside⟩ := (hr.linked hn).slots right hslot hc
    cases hexpecting : a.expecting with
    | false => simp [hexpecting] at hhole
    | true =>
      rw [hexpecting, if_pos rfl] at hhole
      exact ⟨rfl, hhole, hside⟩
  · rintro ⟨hexpecting, hactive, rfl⟩
    obtain ⟨m, hm, hchild⟩ := h.empty_slot hexpecting hactive
    cases hn.symm.trans hm
    exact hchild
  · have hlt := h.active_lt hi
    obtain ⟨top, hr⟩ := hrooted (List.getElem?_eq_getElem hlt)
    exact ⟨top, hr.root, hr.reaches_root hlt⟩

end Represents

/-- The nodes of an arena without their links. -/
def contents (a : ExprArena) : List (ExprItem × Token × Bool) := a.nodes.map ArenaNode.content

/-- The innermost open group around a node, which may be the node itself. -/
inductive Encloses (ns : List ArenaNode) : Nat → Nat → Prop
  | here {i : Nat} {n : ArenaNode} : ns[i]? = some n → n.isOpenGroup → Encloses ns i i
  | around {i p g : Nat} {n : ArenaNode} : ns[i]? = some n → n.isOpenGroup = false →
      n.parent = some p → Encloses ns p g → Encloses ns i g

/-- Whether an item can come next. Operands come where one is expected, and what follows an operand
where none is. -/
def Admits (a : ExprArena) : ExprItem → Prop
  | .closeGroup => a.expecting = false ∧ ∃ i g, a.active = some i ∧ Encloses a.nodes i g
  | .operator (.binary _) => a.expecting = false
  | .operator (.unary _) | .openGroup | .integer _ | .symbol _ => a.expecting = true

section Answers

/-- How an item with a token is answered. One that can come next is taken without a report: the
innermost open group is closed, or the item is stored behind all others. Any other one is refused
with an error and changes nothing but that nothing can be built any more. -/
inductive Answers (a : ExprArena) (t : Token) :
    ExprItem → Bool → ExprArena → List Diagnostic → Prop
  | stored {item : ExprItem} {b : ExprArena} : a.Admits item → item ≠ .closeGroup →
      b.contents = a.contents ++ [(item, t, false)] → b.active = some a.nodes.length →
      b.expecting = item.awaitsOperand → b.failed = a.failed → Answers a t item true b []
  | closed {i g : Nat} : a.expecting = false → a.active = some i → Encloses a.nodes i g →
      Answers a t .closeGroup true
        { a with nodes := a.nodes.modify g ({ · with closed := true }), active := some g } []
  | refused {item : ExprItem} {d : Diagnostic} : ¬a.Admits item → d.severity = .error →
      d.location = t.location → Answers a t item false { a with failed := true } [d]

/-- Whether two arenas differ in links, and in where they grow, only. -/
structure Relinked (a b : ExprArena) : Prop where
  contents : b.contents = a.contents
  failed : b.failed = a.failed

variable {a b c : ExprArena} {t : Token}

theorem Relinked.trans (h : Relinked a b) (h' : Relinked b c) : Relinked a c :=
  ⟨h'.contents.trans h.contents, h'.failed.trans h.failed⟩

theorem Relinked.of_alloc {n : ArenaNode} (h : Relinked (a.alloc n) b) :
    b.contents = a.contents ++ [n.content] := by
  rw [h.contents, ExprArena.contents, alloc, List.map_append]
  rfl

theorem update_eq_ok {i : Option Nat} {f : ArenaNode → ArenaNode} (h : a.update i f = .ok b) :
    ∃ k, i = some k ∧ b = { a with nodes := a.nodes.modify k f } := by
  unfold update at h
  split at h
  · split at h <;> cases h
    exact ⟨_, rfl, rfl⟩
  · cases h

theorem relinked_update {i : Option Nat} {f : ArenaNode → ArenaNode} (h : a.update i f = .ok b)
    (hf : ∀ n, (f n).content = n.content) : Relinked a b := by
  obtain ⟨k, -, rfl⟩ := update_eq_ok h
  refine ⟨List.ext_getElem? fun j => ?_, rfl⟩
  simp only [ExprArena.contents, List.getElem?_map, List.getElem?_modify, Option.map_eq_map,
    Option.map_map]
  refine congrFun (congrArg Option.map (funext fun n => ?_)) _
  rw [Function.comp_apply]
  split
  · exact hf n
  · rfl

theorem relinked_attach {i : Nat} (h : a.attach i = .ok b) : Relinked a b := by
  unfold attach at h
  split at h
  · cases h
    exact ⟨rfl, rfl⟩
  · obtain ⟨c, hc, h⟩ := except_bind_eq_ok.mp h
    obtain ⟨n, -, h⟩ := except_bind_eq_ok.mp h
    exact (relinked_update hc fun _ => rfl).trans (relinked_update h fun m => m.content_fill _ _)

theorem relinked_splice {op : BinaryOperator} {child parent : Option Nat}
    (h : a.splice op t child parent = .ok b) :
    b.contents = a.contents ++ [(.operator (.binary op), t, false)] ∧ b.failed = a.failed := by
  unfold splice at h
  obtain ⟨c, hc, h⟩ := except_bind_eq_ok.mp h
  have hchild := relinked_update hc fun _ => rfl
  have hparent : Relinked c b := by
    split at h
    · cases h
      exact ⟨rfl, rfl⟩
    · obtain ⟨n, -, h⟩ := except_bind_eq_ok.mp h
      exact relinked_update h fun m => m.content_fill _ _
  have hlinks := hchild.trans hparent
  exact ⟨hlinks.of_alloc, hlinks.failed⟩

/-- The walk up from a node ends at the innermost open group, if there is one. -/
theorem openGroup?_eq_ok {fuel : Nat} {i g : Option Nat} (h : a.openGroup? fuel i = .ok g)
    (k : Nat) : g = some k ↔ ∃ j, i = some j ∧ Encloses a.nodes j k := by
  induction fuel generalizing i with
  | zero =>
    cases i with
    | none =>
      cases h
      simp
    | some i => cases h
  | succ fuel ih =>
    cases i with
    | none =>
      cases h
      simp
    | some i =>
      rw [openGroup?] at h
      obtain ⟨n, hnode, h⟩ := except_bind_eq_ok.mp h
      have hn := getElem?_of_node hnode
      split at h
      · next hopen =>
        cases h
        refine ⟨fun hk => ⟨i, rfl, ?_⟩, ?_⟩
        · cases hk
          exact .here hn hopen
        · rintro ⟨j, ⟨⟩, hj⟩
          cases hj with
          | here => rfl
          | around hn' hclosed =>
            cases hn.symm.trans hn'
            exact absurd hopen (Bool.eq_false_iff.mp hclosed)
      · next hopen =>
        rw [ih h]
        constructor
        · rintro ⟨p, hp, hj⟩
          exact ⟨i, rfl, .around hn (Bool.eq_false_iff.mpr hopen) hp hj⟩
        · rintro ⟨j, ⟨⟩, hj⟩
          cases hj with
          | here hn' hopen' =>
            cases hn.symm.trans hn'
            exact absurd hopen' hopen
          | around hn' _ hp hj =>
            cases hn.symm.trans hn'
            exact ⟨_, hp, hj⟩

variable {item : ExprItem} {r : Reported (Bool × ExprArena)}

theorem answers_reject (h : (liftM (a.reject t) : Guarded _) = .ok r) (hitem : ¬a.Admits item) :
    Answers a t item r.value.1 r.value.2 r.diagnostics := by
  rw [← liftReported_eq_ok.mp h]
  exact .refused hitem rfl rfl

theorem answers_addOperand (hitem : item ≠ .closeGroup)
    (hadmits : a.Admits item ↔ a.expecting = true)
    (h : a.addOperand item t item.awaitsOperand = .ok r) :
    Answers a t item r.value.1 r.value.2 r.diagnostics := by
  unfold addOperand at h
  split at h
  · next hexpecting =>
    obtain ⟨b, hattach, h⟩ := lift_bind_eq_ok.mp h
    cases pure_eq_ok.mp h
    have hlinks := relinked_attach hattach
    exact .stored (hadmits.mpr hexpecting) hitem hlinks.of_alloc rfl rfl hlinks.failed
  · next hexpecting => exact answers_reject h (mt hadmits.mp hexpecting)

theorem answers_addInfix {op : BinaryOperator} (h : a.addInfix op t = .ok r) :
    Answers a t (.operator (.binary op)) r.value.1 r.value.2 r.diagnostics := by
  unfold addInfix at h
  split at h
  · next hexpecting => exact answers_reject h fun hadmits => by simp [Admits, hexpecting] at hadmits
  · next hexpecting =>
    obtain ⟨n, -, h⟩ := lift_bind_eq_ok.mp h
    obtain ⟨⟨child, parent⟩, -, h⟩ := lift_bind_eq_ok.mp h
    obtain ⟨b, hsplice, h⟩ := lift_bind_eq_ok.mp h
    cases pure_eq_ok.mp h
    obtain ⟨hcontents, hfailed⟩ := relinked_splice hsplice
    exact .stored (Bool.eq_false_iff.mpr hexpecting) nofun hcontents rfl rfl hfailed

theorem answers_closeGroup (h : a.closeGroup t = .ok r) :
    Answers a t .closeGroup r.value.1 r.value.2 r.diagnostics := by
  unfold closeGroup at h
  split at h
  · next hexpecting => exact answers_reject h fun hadmits => by simp [Admits, hexpecting] at hadmits
  · next hexpecting =>
    obtain ⟨g, hgroup, h⟩ := lift_bind_eq_ok.mp h
    have hinnermost := openGroup?_eq_ok hgroup
    cases g with
    | none =>
      obtain ⟨_, _, hreport, hrest, rfl⟩ := bind_eq_ok.mp h
      cases liftReported_eq_ok.mp hreport
      cases pure_eq_ok.mp hrest
      refine .refused ?_ rfl rfl
      rintro ⟨-, i, k, hi, hk⟩
      cases (hinnermost k).mpr ⟨i, hi, hk⟩
    | some g =>
      obtain ⟨b, hupdate, h⟩ := lift_bind_eq_ok.mp h
      cases pure_eq_ok.mp h
      obtain ⟨i, hi, hg⟩ := (hinnermost g).mp rfl
      obtain ⟨_, ⟨⟩, rfl⟩ := update_eq_ok hupdate
      exact .closed (Bool.eq_false_iff.mpr hexpecting) hi hg

theorem answers_add (h : a.add item t = .ok r) :
    Answers a t item r.value.1 r.value.2 r.diagnostics := by
  cases item with
  | closeGroup => exact answers_closeGroup h
  | integer | symbol | openGroup => exact answers_addOperand nofun .rfl h
  | operator op =>
    cases op with
    | unary op => exact answers_addOperand nofun .rfl h
    | binary op => exact answers_addInfix h

end Answers

/-- Add items one after the other. Beside the new state stands which of them were taken. -/
def addItems (a : ExprArena) : List (ExprItem × Token) → Guarded (List Bool × ExprArena)
  | [] => pure ([], a)
  | (item, t) :: rest => do
    let (taken, a) ← a.add item t
    let (others, a) ← a.addItems rest
    return (taken :: others, a)

theorem Represents.addItems {a : ExprArena} {b : ExprBuilder} (h : Represents a b)
    (items : List (ExprItem × Token)) :
    ∃ taken a' b' ds, a.addItems items = .ok ⟨(taken, a'), ds⟩ ∧ Represents a' b' ∧
      (a'.failed = false ↔ a.failed = false ∧ ∀ x ∈ taken, x = true) := by
  induction items generalizing a b with
  | nil => exact ⟨[], a, b, [], rfl, h, by simp⟩
  | cons x rest ih =>
    obtain ⟨item, t⟩ := x
    obtain ⟨⟨taken, a₁⟩, ⟨_, b₁⟩, ds, hadd, -, -, h₁⟩ := h.parallel_add item t
    obtain ⟨others, a₂, b₂, es, hrest, h₂, hfailed⟩ := ih h₁
    refine ⟨taken :: others, a₂, b₂, ds ++ es, ?_, h₂, ?_⟩
    · refine bind_eq_ok.mpr ⟨_, ⟨_, es⟩, hadd, ?_, rfl⟩
      exact bind_eq_ok.mpr ⟨_, _, hrest, rfl, by simp⟩
    · have hanswer := answers_add hadd
      dsimp only at hanswer
      rw [hfailed, List.forall_mem_cons]
      cases hanswer with
      | stored _ _ _ _ _ hsame => simp [hsame]
      | closed => simp
      | refused => simp

theorem value_build (a : ExprArena) (place : Source.Location) :
    (a.build place).value = true ↔ a.failed = false ∧ a.root.isSome ∧ a.expecting = false ∧
      ∀ n ∈ a.nodes, n.isOpenGroup = false := by
  have hclosed : (∀ n ∈ a.nodes, n.isOpenGroup = false) ↔
      a.nodes.find? ArenaNode.isOpenGroup = none := by
    simp
  rw [hclosed, build]
  cases a.failed with
  | true => simp
  | false =>
    cases a.root with
    | none => simp [-bind_pure_comp]
    | some top =>
      cases a.expecting with
      | true => simp [-bind_pure_comp]
      | false => cases a.nodes.find? ArenaNode.isOpenGroup <;> simp [-bind_pure_comp]

theorem Represents.root_isSome {a : ExprArena} {b : ExprBuilder} (h : Represents a b)
    (hexpecting : a.expecting = false) : a.root.isSome := by
  cases h with
  | slot => cases hexpecting
  | operand he hs => exact hs.root_isSome

/-- Whatever items are added to an empty arena, no place is out of range, the nodes form a tree, and
an item that is refused leaves everything as it is. An expression can be built if all items were
taken, no operand is expected and no group is open. -/
theorem arena_wellFormed (items : List (ExprItem × Token)) :
    ∃ taken a ds, empty.addItems items = .ok ⟨(taken, a), ds⟩ ∧ a.WellFormed ∧
      (∀ item t, ∃ b x es, a.add item t = .ok ⟨(x, b), es⟩ ∧ Answers a t item x b es) ∧
      ∀ place, (a.build place).value = true ↔
        (∀ x ∈ taken, x = true) ∧ a.expecting = false ∧ ∀ n ∈ a.nodes, n.isOpenGroup = false := by
  obtain ⟨taken, a, b, ds, hrun, h, hfailed⟩ := Represents.empty.addItems items
  refine ⟨taken, a, ds, hrun, h.wellFormed, fun item t => ?_, fun place => ?_⟩
  · obtain ⟨⟨x, a'⟩, _, es, hadd, -⟩ := h.parallel_add item t
    exact ⟨a', x, es, hadd, answers_add hadd⟩
  · rw [value_build, hfailed]
    constructor
    · rintro ⟨⟨-, htaken⟩, -, hexpecting, hclosed⟩
      exact ⟨htaken, hexpecting, hclosed⟩
    · rintro ⟨htaken, hexpecting, hclosed⟩
      exact ⟨⟨rfl, htaken⟩, h.root_isSome hexpecting, hexpecting, hclosed⟩

end ExprArena

end MipsToolchain
