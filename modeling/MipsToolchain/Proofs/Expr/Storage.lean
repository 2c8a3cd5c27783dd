import MipsToolchain.Expr.Arena

namespace MipsToolchain

/-- Two arenas with the same nodes from one place up to another. -/
def Agree (ns ns' : List ArenaNode) (lo hi : Nat) : Prop :=
  ∀ k, lo ≤ k → k < hi → ns'[k]? = ns[k]?

namespace Agree

variable {ns ns' ns'' : List ArenaNode} {lo hi : Nat}

theorem mono (h : Agree ns ns' lo hi) {lo' hi' : Nat} (hlo : lo ≤ lo') (hhi : hi' ≤ hi) :
    Agree ns ns' lo' hi' :=
  fun k hk hk' => h k (Nat.le_trans hlo hk) (Nat.lt_of_lt_of_le hk' hhi)

theorem trans (h : Agree ns ns' lo hi) (h' : Agree ns' ns'' lo hi) : Agree ns ns'' lo hi :=
  fun k hk hk' => (h' k hk hk').trans (h k hk hk')

theorem append (ns ms : List ArenaNode) (lo : Nat) : Agree ns (ns ++ ms) lo ns.length :=
  fun _ _ hk => List.getElem?_append_left hk

theorem modify (ns : List ArenaNode) (f : ArenaNode → ArenaNode) {i : Nat} (h : i < lo ∨ hi ≤ i) :
    Agree ns (ns.modify i f) lo hi := by
  intro k hk hk'
  have hne : i ≠ k := by omega
  simp only [List.getElem?_modify, if_neg hne, id_map']

end Agree

theorem getElem?_modify_self {ns : List ArenaNode} {i : Nat} {n : ArenaNode} (h : ns[i]? = some n)
    (f : ArenaNode → ArenaNode) : (ns.modify i f)[i]? = some (f n) := by
  rw [List.getElem?_modify_eq, h]
  rfl

namespace ExprArena

/-- An expression as it is stored. Its nodes have the places from `lo` up to `hi`, its top is at `i`
and refers to `p`. Places follow the order of the tokens, so that a binary operator stands between
its operands and everything else in front of its operand. -/
inductive Stored (ns : List ArenaNode) : Nat → Nat → Nat → Option Nat → Expr → Prop
  | integer {lo : Nat} {p : Option Nat} {v : Int64} {t : Token} :
      ns[lo]? = some { item := .integer v, token := t, parent := p } →
      Stored ns lo (lo + 1) lo p (.integer v t)
  | symbol {lo : Nat} {p : Option Nat} {s : String} {t : Token} :
      ns[lo]? = some { item := .symbol s, token := t, parent := p } →
      Stored ns lo (lo + 1) lo p (.symbol s t)
  | unary {lo hi j : Nat} {p : Option Nat} {op : UnaryOperator} {t : Token} {e : Expr} :
      ns[lo]? = some { item := .operator (.unary op), token := t, parent := p, left := some j } →
      Stored ns (lo + 1) hi j (some lo) e → Stored ns lo hi lo p (.unary op t e)
  | group {lo hi j : Nat} {p : Option Nat} {t : Token} {e : Expr} :
      ns[lo]? = some { item := .openGroup, token := t, parent := p, left := some j, closed := true } →
      Stored ns (lo + 1) hi j (some lo) e → Stored ns lo hi lo p (.group t e)
  | binary {lo hi i j k : Nat} {p : Option Nat} {op : BinaryOperator} {t : Token} {l r : Expr} :
      ns[i]? = some { item := .operator (.binary op), token := t, parent := p, left := some j,
                      right := some k } →
      Stored ns lo i j (some i) l → Stored ns (i + 1) hi k (some i) r →
      Stored ns lo hi i p (.binary op t l r)

/-- A frame as it is stored, with a slot for an operand behind it. Its own node is at `k`, refers to
`p` and stands behind the operand that the frame has already, the nodes of which begin at `lo`. -/
inductive Framed (ns : List ArenaNode) (slot : Option Nat) :
    Nat → Nat → Option Nat → ExprFrame → Prop
  | unary {k : Nat} {p : Option Nat} {op : UnaryOperator} {t : Token} :
      ns[k]? = some { item := .operator (.unary op), token := t, parent := p, left := slot } →
      Framed ns slot k k p (.unary op t)
  | group {k : Nat} {p : Option Nat} {t : Token} :
      ns[k]? = some { item := .openGroup, token := t, parent := p, left := slot } →
      Framed ns slot k k p (.group t)
  | binary {lo k j : Nat} {p : Option Nat} {op : BinaryOperator} {t : Token} {l : Expr} :
      ns[k]? = some { item := .operator (.binary op), token := t, parent := p, left := some j,
                      right := slot } →
      Stored ns lo k j (some k) l → Framed ns slot lo k p (.binary op t l)

/-- What is stored in front of a place, the frames around it: the innermost of them, at `p`, has the
slot, and the outermost is the root. Without a frame, the slot is the root. -/
inductive Spine (ns : List ArenaNode) :
    Option Nat → Nat → Option Nat → List ExprFrame → Option Nat → Prop
  | nil {slot : Option Nat} : Spine ns slot 0 none [] slot
  | cons {slot p r : Option Nat} {lo k : Nat} {f : ExprFrame} {fs : List ExprFrame} :
      Framed ns slot lo k p f → Spine ns (some k) lo p fs r →
      Spine ns slot (k + 1) (some k) (f :: fs) r

variable {ns ns' : List ArenaNode} {lo hi i k : Nat} {slot p q r : Option Nat} {e : Expr}
  {f : ExprFrame} {fs : List ExprFrame}

namespace Stored

theorem bounds (h : Stored ns lo hi i p e) : lo ≤ i ∧ i < hi := by
  induction h with
  | integer | symbol => omega
  | unary _ _ ih | group _ _ ih => omega
  | binary _ _ _ ihl ihr => omega

theorem congr (h : Stored ns lo hi i p e) (ha : Agree ns ns' lo hi) : Stored ns' lo hi i p e := by
  induction h with
  | integer hn => exact .integer ((ha _ (Nat.le_refl _) (Nat.lt_succ_self _)).trans hn)
  | symbol hn => exact .symbol ((ha _ (Nat.le_refl _) (Nat.lt_succ_self _)).trans hn)
  | unary hn he ih =>
    have hb := he.bounds
    exact .unary ((ha _ (Nat.le_refl _) (by omega)).trans hn)
      (ih (ha.mono (Nat.le_succ _) (Nat.le_refl _)))
  | group hn he ih =>
    have hb := he.bounds
    exact .group ((ha _ (Nat.le_refl _) (by omega)).trans hn)
      (ih (ha.mono (Nat.le_succ _) (Nat.le_refl _)))
  | binary hn hl hr ihl ihr =>
    have hbl := hl.bounds
    have hbr := hr.bounds
    exact .binary ((ha _ (by omega) (by omega)).trans hn)
      (ihl (ha.mono (Nat.le_refl _) (by omega))) (ihr (ha.mono (by omega) (Nat.le_refl _)))

theorem reparent (h : Stored ns lo hi i p e) (hl : Agree ns ns' lo i) (hr : Agree ns ns' (i + 1) hi)
    (ht : ns'[i]? = ns[i]?.map ({ · with parent := q })) : Stored ns' lo hi i q e := by
  cases h with
  | integer hn => exact .integer (by rw [ht, hn]; rfl)
  | symbol hn => exact .symbol (by rw [ht, hn]; rfl)
  | unary hn he => exact .unary (by rw [ht, hn]; rfl) (he.congr hr)
  | group hn he => exact .group (by rw [ht, hn]; rfl) (he.congr hr)
  | binary hn hleft hright =>
    exact .binary (by rw [ht, hn]; rfl) (hleft.congr hl) (hright.congr hr)

theorem top (h : Stored ns lo hi i p e) :
    ∃ n, ns[i]? = some n ∧ n.parent = p ∧ n.isOpenGroup = false := by
  cases h with
  | integer hn | symbol hn | unary hn | group hn | binary hn => exact ⟨_, hn, rfl, rfl⟩

end Stored

namespace Framed

theorem le (h : Framed ns slot lo k p f) : lo ≤ k := by
  cases h with
  | unary | group => exact Nat.le_refl _
  | binary _ hl =>
    have hb := hl.bounds
    omega

theorem congr (h : Framed ns slot lo k p f) (ha : Agree ns ns' lo (k + 1)) :
    Framed ns' slot lo k p f := by
  have hk : ns'[k]? = ns[k]? := ha k h.le (Nat.lt_succ_self k)
  cases h with
  | unary hn => exact .unary (hk.trans hn)
  | group hn => exact .group (hk.trans hn)
  | binary hn hl => exact .binary (hk.trans hn) (hl.congr (ha.mono (Nat.le_refl _) (Nat.le_succ _)))

theorem node (h : Framed ns slot lo k p f) :
    ∃ n, ns[k]? = some n ∧ n.parent = p ∧ n.token = f.token ∧
      n.isOpenGroup = f.precedence?.isNone ∧ (∀ c, f.precedence? = some c → n.precedence = .ok c) ∧
      n.right = if n.isBinary then slot else none := by
  cases h with
  | unary hn | binary hn => exact ⟨_, hn, rfl, rfl, rfl, fun _ hc => by cases hc; rfl, rfl⟩
  | group hn => exact ⟨_, hn, rfl, rfl, rfl, nofun, rfl⟩

theorem refill (h : Framed ns slot lo k p f) (ha : Agree ns ns' lo k) {c : Nat}
    (hk : ns'[k]? = ns[k]?.map fun n => n.fill n.isBinary c) : Framed ns' (some c) lo k p f := by
  cases h with
  | unary hn => exact .unary (by rw [hk, hn]; rfl)
  | group hn => exact .group (by rw [hk, hn]; rfl)
  | binary hn hl => exact .binary (by rw [hk, hn]; rfl) (hl.congr ha)

theorem stored (h : Framed ns (some i) lo k p f) (hf : f.precedence?.isSome)
    (he : Stored ns (k + 1) hi i (some k) e) : Stored ns lo hi k p (f.fill e) := by
  cases h with
  | unary hn => exact .unary hn he
  | group hn => cases hf
  | binary hn hl => exact .binary hn hl he

end Framed

namespace Spine

theorem congr (h : Spine ns slot k p fs r) (ha : Agree ns ns' 0 k) : Spine ns' slot k p fs r := by
  induction h with
  | nil => exact .nil
  | cons hf hs ih =>
    have hle := hf.le
    exact .cons (hf.congr (ha.mono (Nat.zero_le _) (Nat.le_refl _)))
      (ih (ha.mono (Nat.le_refl _) (by omega)))

theorem length_le (h : Spine ns slot k p fs r) : fs.length ≤ k := by
  induction h with
  | nil => exact Nat.le_refl _
  | cons hf _ ih =>
    have hle := hf.le
    rw [List.length_cons]
    omega

theorem root_isSome (h : Spine ns (some i) k p fs r) : r.isSome := by
  generalize hs : some i = slot at h
  induction h generalizing i with
  | nil => subst hs; rfl
  | cons _ _ ih => exact ih rfl

theorem innermost (h : Spine ns slot k p fs r) :
    (p = none ∧ k = 0 ∧ fs = [] ∧ r = slot) ∨ ∃ i, p = some i ∧ k = i + 1 ∧ r.isSome := by
  cases h with
  | nil => exact .inl ⟨rfl, rfl, rfl, rfl⟩
  | cons _ hs => exact .inr ⟨_, rfl, rfl, hs.root_isSome⟩

theorem refill (h : Spine ns slot k (some i) fs r) (ha : Agree ns ns' 0 k) :
    ∃ n, ns'[i]? = some n ∧ (n.right = if n.isBinary then slot else none) ∧
      ∀ c, Spine (ns'.modify i (·.fill n.isBinary c)) (some c) k (some i) fs r := by
  cases h with
  | cons hf hs =>
    obtain ⟨n, hn, -, -, -, -, hright⟩ := hf.node
    have hn' : ns'[i]? = some n := (ha i (Nat.zero_le _) (Nat.lt_succ_self i)).trans hn
    refine ⟨n, hn', hright, fun c => ?_⟩
    have hrest : Agree ns (ns'.modify i (·.fill n.isBinary c)) 0 i :=
      (ha.mono (Nat.le_refl _) (Nat.le_succ _)).trans (.modify _ _ (.inr (Nat.le_refl _)))
    refine .cons (hf.refill (hrest.mono (Nat.zero_le _) (Nat.le_refl _)) ?_)
      (hs.congr (hrest.mono (Nat.le_refl _) hf.le))
    rw [hn]
    exact getElem?_modify_self hn' _

end Spine

section OpenGroups

def openToken (ns : List ArenaNode) (k : Nat) : Option Token :=
  ((ns.take k).find? ArenaNode.isOpenGroup).map (·.token)

theorem openToken_succ {n : ArenaNode} (hn : ns[k]? = some n) :
    openToken ns (k + 1) = (openToken ns k).or (if n.isOpenGroup then some n.token else none) := by
  have hlast : [n].find? ArenaNode.isOpenGroup = if n.isOpenGroup then some n else none := by
    cases h : n.isOpenGroup <;> simp [List.find?, h]
  rw [openToken, openToken, List.take_add_one, hn, Option.toList_some, List.find?_append, hlast]
  cases (ns.take k).find? ArenaNode.isOpenGroup with
  | some m => rfl
  | none => cases n.isOpenGroup <;> rfl

theorem Stored.openToken_eq (h : Stored ns lo hi i p e) : openToken ns hi = openToken ns lo := by
  induction h with
  | integer hn | symbol hn => exact (openToken_succ hn).trans (Option.or_none)
  | unary hn _ ih | group hn _ ih => exact ih.trans ((openToken_succ hn).trans Option.or_none)
  | binary hn _ _ ihl ihr =>
    exact ihr.trans ((openToken_succ hn).trans (Option.or_none.trans ihl))

theorem Framed.openToken_eq (h : Framed ns slot lo k p f) :
    openToken ns (k + 1) = (openToken ns lo).or f.groupToken? := by
  cases h with
  | unary hn | group hn => exact openToken_succ hn
  | binary hn hl => exact (openToken_succ hn).trans (congrArg (Option.or · none) hl.openToken_eq)

theorem Spine.openToken_eq (h : Spine ns slot k p fs r) :
    openToken ns k = (fs.filterMap ExprFrame.groupToken?).getLast? := by
  induction h with
  | nil => rfl
  | @cons _ _ _ _ _ f fs hf _ ih =>
    rw [hf.openToken_eq, ih, List.filterMap_cons]
    cases f.groupToken? with
    | none => exact Option.or_none
    | some t =>
      rw [List.getLast?_cons]
      cases (fs.filterMap ExprFrame.groupToken?).getLast? <;> rfl

end OpenGroups

end ExprArena

end MipsToolchain
