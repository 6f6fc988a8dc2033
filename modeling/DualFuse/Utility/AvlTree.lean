import DualFuse.Library.Execution
import DualFuse.Library.SearchTree

/-! The AVL tree (`utility/avl_tree.cpp`). A node stores its height; a missing
node has height zero. Rotations move nodes and keep their contents, so the value
that `AVLAllocate` writes through its target pointer is written here when the node
is made. Removing a node with one child copies the child over it, removing one
with two children promotes the successor. Reading through a missing node is a
fault. Heights stay far below the range of an `int`. -/

namespace DualFuse.Utility

open Library

/-- `AVLheader`: key, left, right, height, value. -/
abbrev AvlHeader := SearchTree ℕ ℤ ℕ

namespace AvlHeader

def calcHeight : AvlHeader → ℤ
  | .nil => 0
  | .node _ _ _ height _ => height

def calcBalance : AvlHeader → ℤ
  | .nil => 0
  | .node _ left right _ _ => calcHeight left - calcHeight right

/-- A node whose height was recomputed from its children. -/
def withHeight (key : ℕ) (left right : AvlHeader) (value : ℕ) : AvlHeader :=
  .node key left right (1 + max (calcHeight left) (calcHeight right)) value

def avlRotationsRight : AvlHeader → Exec AvlHeader
  | .node yk (.node xk xl t2 _ xv) yr _ yv => .ok (withHeight xk xl (withHeight yk t2 yr yv) xv)
  | _ => .error .fault

def avlRotationsLeft : AvlHeader → Exec AvlHeader
  | .node xk xl (.node yk t2 yr _ yv) _ xv => .ok (withHeight yk (withHeight xk xl t2 xv) yr yv)
  | _ => .error .fault

/-- The key and value of the leftmost node. -/
def avlMinKeyNode : AvlHeader → Exec (ℕ × ℕ)
  | .nil => .error .fault
  | .node key left _ _ value => .ok (left.first key value)

/-- Step 3 of `AVLAllocateL`: the rotation is chosen by the new key. -/
def balanceAllocated (key : ℕ) : AvlHeader → Exec AvlHeader
  | .nil => .error .fault
  | .node k l r h v =>
    if calcHeight l - calcHeight r > 1 then
      match l with
      | .nil => .error .fault
      | .node lk _ _ _ _ =>
        if key < lk then avlRotationsRight (.node k l r h v)
        else if key > lk then do
          let l ← avlRotationsLeft l
          avlRotationsRight (.node k l r h v)
        else .ok (.node k l r h v)
    else if calcHeight l - calcHeight r < -1 then
      match r with
      | .nil => .error .fault
      | .node rk _ _ _ _ =>
        if key > rk then avlRotationsLeft (.node k l r h v)
        else if key < rk then do
          let r ← avlRotationsRight r
          avlRotationsLeft (.node k l r h v)
        else .ok (.node k l r h v)
    else .ok (.node k l r h v)

def avlAllocateL (key value : ℕ) : AvlHeader → Exec AvlHeader
  | .nil => .ok (.node key .nil .nil 1 value)
  | .node k l r _ v =>
    if key < k then do
      let l ← avlAllocateL key value l
      balanceAllocated key (withHeight k l r v)
    else if key > k then do
      let r ← avlAllocateL key value r
      balanceAllocated key (withHeight k l r v)
    else .error .halt

/-- Step 3 of `AVLUnregisterL`: the rotation is chosen by the balance of the child. -/
def balanceUnregistered : AvlHeader → Exec AvlHeader
  | .nil => .ok .nil
  | .node k l r h v =>
    if calcHeight l - calcHeight r > 1 then
      if calcBalance l ≥ 0 then avlRotationsRight (.node k l r h v)
      else do
        let l ← avlRotationsLeft l
        avlRotationsRight (.node k l r h v)
    else if calcHeight l - calcHeight r < -1 then
      if calcBalance r ≤ 0 then avlRotationsLeft (.node k l r h v)
      else do
        let r ← avlRotationsRight r
        avlRotationsLeft (.node k l r h v)
    else .ok (.node k l r h v)

/-- The tree without the key, and what was written to `*target`, zero when nothing
was removed. -/
def avlUnregisterL (key : ℕ) : AvlHeader → Exec (AvlHeader × ℕ)
  | .nil => .ok (.nil, 0)
  | .node k l r _ v =>
    if key < k then do
      let (l, target) ← avlUnregisterL key l
      let root ← balanceUnregistered (withHeight k l r v)
      .ok (root, target)
    else if key > k then do
      let (r, target) ← avlUnregisterL key r
      let root ← balanceUnregistered (withHeight k l r v)
      .ok (root, target)
    else
      match l, r with
      | .nil, .nil => .ok (.nil, v)
      -- the child is copied over the node, and the target is the child's value
      | .node ck cl cr _ cv, .nil | .nil, .node ck cl cr _ cv => do
        let root ← balanceUnregistered (withHeight ck cl cr cv)
        .ok (root, cv)
      | .node _ _ _ _ _, .node _ _ _ _ _ => do
        let (sk, sv) ← avlMinKeyNode r
        let (r, target) ← avlUnregisterL sk r
        let root ← balanceUnregistered (withHeight sk l r sv)
        .ok (root, target)

def avlAllocate (first : AvlHeader) (key value : ℕ) : Exec AvlHeader := avlAllocateL key value first

def avlUnregister (first : AvlHeader) (key : ℕ) : Exec (AvlHeader × Bool) := do
  let (first, target) ← avlUnregisterL key first
  .ok (first, target != 0)

def avlLookup (root : AvlHeader) (key : ℕ) : ℕ :=
  match root with
  | .nil => 0
  | .node k l r _ v => if key > k then avlLookup r key else if key < k then avlLookup l key else v

/-! ### Balance -/

/-- Every stored height is one more than the larger height of the children, whose
heights differ by at most one. -/
def Balanced : AvlHeader → Prop
  | .nil => True
  | .node _ l r h _ => Balanced l ∧ Balanced r ∧ h = 1 + max (calcHeight l) (calcHeight r) ∧
    calcHeight l ≤ calcHeight r + 1 ∧ calcHeight r ≤ calcHeight l + 1

/-- The height as the length of the longest path. -/
def trueHeight : AvlHeader → ℤ
  | .nil => 0
  | .node _ l r _ _ => 1 + max (trueHeight l) (trueHeight r)

@[simp] theorem calcHeight_node (k : ℕ) (l r : AvlHeader) (h : ℤ) (v : ℕ) : calcHeight (.node k l r h v) = h := rfl

@[simp] theorem calcHeight_nil : calcHeight .nil = 0 := rfl

@[simp] theorem calcHeight_withHeight (k : ℕ) (l r : AvlHeader) (v : ℕ) :
    calcHeight (withHeight k l r v) = 1 + max (calcHeight l) (calcHeight r) := rfl

theorem Balanced.calcHeight_nonneg {t : AvlHeader} (h : Balanced t) : 0 ≤ calcHeight t := by
  induction t with
  | nil => exact le_rfl
  | node k l r i v ihl ihr =>
    have := ihl h.1
    have := h.2.2.1
    rw [calcHeight_node]
    omega

theorem Balanced.calcHeight_eq_trueHeight {t : AvlHeader} (h : Balanced t) : calcHeight t = trueHeight t := by
  induction t with
  | nil => rfl
  | node k l r i v ihl ihr =>
    rw [calcHeight_node, trueHeight, ← ihl h.1, ← ihr h.2.1]
    exact h.2.2.1

theorem balanced_withHeight {k : ℕ} {l r : AvlHeader} {v : ℕ} (hl : Balanced l) (hr : Balanced r)
    (h₁ : calcHeight l ≤ calcHeight r + 1) (h₂ : calcHeight r ≤ calcHeight l + 1) :
    Balanced (withHeight k l r v) := ⟨hl, hr, rfl, h₁, h₂⟩

theorem Balanced.exists_node {t : AvlHeader} (h : 0 < calcHeight t) : ∃ k l r i v, t = .node k l r i v := by
  cases t with
  | nil => exact absurd h (lt_irrefl _)
  | node k l r i v => exact ⟨k, l, r, i, v, rfl⟩

/-- `t'` is a balanced tree with the entries of `t` and the height `n` or `n + 1`. -/
structure Rebalanced (t t' : AvlHeader) (n : ℤ) : Prop where
  same : t.Same t'
  balanced : Balanced t'
  height : calcHeight t' = n ∨ calcHeight t' = n + 1

section Rotations
variable {k lk rk v lv rv : ℕ} {l r ll lr rl rr : AvlHeader} {h lh rh : ℤ}

/-- One rotation mends a left child that is too high on its own left side. -/
theorem avlRotationsRight_spec (hl : Balanced (.node lk ll lr lh lv)) (hr : Balanced r)
    (hh : lh = calcHeight r + 2) (hc : calcHeight lr ≤ calcHeight ll) :
    ∃ t', avlRotationsRight (.node k (.node lk ll lr lh lv) r h v) = .ok t' ∧
      Rebalanced (.node k (.node lk ll lr lh lv) r h v) t' (calcHeight r + 2) ∧
      (calcHeight lr < calcHeight ll → calcHeight t' = calcHeight r + 2) := by
  obtain ⟨hll, hlr, hheight, h₁, h₂⟩ := hl
  refine ⟨_, rfl, ⟨SearchTree.same_rotateRight .., ?_, ?_⟩, ?_⟩
  · refine balanced_withHeight hll (balanced_withHeight hlr hr ?_ ?_) ?_ ?_ <;>
      grind [calcHeight_withHeight]
  · simp only [calcHeight_withHeight]
    omega
  · intro hlt
    simp only [calcHeight_withHeight]
    omega

theorem avlRotationsLeft_spec (hl : Balanced l) (hr : Balanced (.node rk rl rr rh rv))
    (hh : rh = calcHeight l + 2) (hc : calcHeight rl ≤ calcHeight rr) :
    ∃ t', avlRotationsLeft (.node k l (.node rk rl rr rh rv) h v) = .ok t' ∧
      Rebalanced (.node k l (.node rk rl rr rh rv) h v) t' (calcHeight l + 2) ∧
      (calcHeight rl < calcHeight rr → calcHeight t' = calcHeight l + 2) := by
  obtain ⟨hrl, hrr, hheight, h₁, h₂⟩ := hr
  refine ⟨_, rfl, ⟨SearchTree.same_rotateLeft .., ?_, ?_⟩, ?_⟩
  · refine balanced_withHeight (balanced_withHeight hl hrl ?_ ?_) hrr ?_ ?_ <;>
      grind [calcHeight_withHeight]
  · simp only [calcHeight_withHeight]
    omega
  · intro hlt
    simp only [calcHeight_withHeight]
    omega

/-- Two rotations mend a left child that is too high on its right side. -/
theorem avlRotationsLeftRight_spec (hl : Balanced (.node lk ll lr lh lv)) (hr : Balanced r)
    (hh : lh = calcHeight r + 2) (hc : calcHeight ll < calcHeight lr) :
    ∃ l' t', avlRotationsLeft (.node lk ll lr lh lv) = .ok l' ∧ avlRotationsRight (.node k l' r h v) = .ok t' ∧
      Rebalanced (.node k (.node lk ll lr lh lv) r h v) t' (calcHeight r + 2) ∧
      calcHeight t' = calcHeight r + 2 := by
  obtain ⟨hll, hlr, hheight, h₁, h₂⟩ := hl
  obtain ⟨mk, ml, mr, mh, mv, rfl⟩ := Balanced.exists_node (t := lr) (by have := hll.calcHeight_nonneg; omega)
  obtain ⟨hml, hmr, hmheight, hm₁, hm₂⟩ := hlr
  rw [calcHeight_node] at *
  refine ⟨_, _, rfl, rfl, ⟨?_, ?_, ?_⟩, ?_⟩
  · have hinner : (SearchTree.node lk ll (.node mk ml mr mh mv) lh lv).Same (withHeight mk (withHeight lk ll ml lv) mr mv) :=
      SearchTree.same_rotateLeft ..
    exact (hinner.node (SearchTree.Same.refl r) k h h v).trans (SearchTree.same_rotateRight ..)
  · refine balanced_withHeight (balanced_withHeight hll hml ?_ ?_) (balanced_withHeight hmr hr ?_ ?_) ?_ ?_ <;>
      grind [calcHeight_withHeight]
  · simp only [calcHeight_withHeight]
    omega
  · simp only [calcHeight_withHeight]
    omega

theorem avlRotationsRightLeft_spec (hl : Balanced l) (hr : Balanced (.node rk rl rr rh rv))
    (hh : rh = calcHeight l + 2) (hc : calcHeight rr < calcHeight rl) :
    ∃ r' t', avlRotationsRight (.node rk rl rr rh rv) = .ok r' ∧ avlRotationsLeft (.node k l r' h v) = .ok t' ∧
      Rebalanced (.node k l (.node rk rl rr rh rv) h v) t' (calcHeight l + 2) ∧
      calcHeight t' = calcHeight l + 2 := by
  obtain ⟨hrl, hrr, hheight, h₁, h₂⟩ := hr
  obtain ⟨mk, ml, mr, mh, mv, rfl⟩ := Balanced.exists_node (t := rl) (by have := hrr.calcHeight_nonneg; omega)
  obtain ⟨hml, hmr, hmheight, hm₁, hm₂⟩ := hrl
  rw [calcHeight_node] at *
  refine ⟨_, _, rfl, rfl, ⟨?_, ?_, ?_⟩, ?_⟩
  · have hinner : (SearchTree.node rk (.node mk ml mr mh mv) rr rh rv).Same (withHeight mk ml (withHeight rk mr rr rv) mv) :=
      SearchTree.same_rotateRight ..
    exact ((SearchTree.Same.refl l).node hinner k h h v).trans (SearchTree.same_rotateLeft ..)
  · refine balanced_withHeight (balanced_withHeight hl hml ?_ ?_) (balanced_withHeight hmr hrr ?_ ?_) ?_ ?_ <;>
      grind [calcHeight_withHeight]
  · simp only [calcHeight_withHeight]
    omega
  · simp only [calcHeight_withHeight]
    omega

end Rotations

/-! ### Insertion -/

/-- The root is the one node, or is higher on the side of the key. -/
def Leans (key : ℕ) : AvlHeader → Prop
  | .nil => False
  | .node k l r h _ => h = 1 ∨ (key < k ∧ calcHeight r < calcHeight l) ∨ (k < key ∧ calcHeight l < calcHeight r)

section BalanceAllocated
variable {key k v : ℕ} {l r : AvlHeader}

theorem balanceAllocated_of_balanced (hl : calcHeight l ≤ calcHeight r + 1) (hr : calcHeight r ≤ calcHeight l + 1) :
    balanceAllocated key (withHeight k l r v) = .ok (withHeight k l r v) := by
  have h₁ : ¬calcHeight l - calcHeight r > 1 := by omega
  have h₂ : ¬calcHeight l - calcHeight r < -1 := by omega
  simp only [withHeight, balanceAllocated, if_neg h₁, if_neg h₂]

theorem balanceAllocated_left (hl : Balanced l) (hr : Balanced r) (hh : calcHeight l = calcHeight r + 2)
    (hkey : Leans key l) :
    ∃ t', balanceAllocated key (withHeight k l r v) = .ok t' ∧ (withHeight k l r v).Same t' ∧ Balanced t' ∧
      calcHeight t' = calcHeight r + 2 := by
  have hnonneg := hr.calcHeight_nonneg
  have h₁ : calcHeight l - calcHeight r > 1 := by omega
  cases l with
  | nil => exact hkey.elim
  | node lk ll lr lh lv =>
    simp only [withHeight, balanceAllocated, if_pos h₁]
    rw [calcHeight_node] at hh
    rcases hkey with h | ⟨hlt, hlean⟩ | ⟨hlt, hlean⟩
    · omega
    · obtain ⟨t', ht, hsame, hheight⟩ := avlRotationsRight_spec hl hr hh hlean.le
      rw [if_pos hlt]
      exact ⟨t', ht, hsame.same, hsame.balanced, hheight hlean⟩
    · obtain ⟨l', t', hl', ht, hsame, hheight⟩ := avlRotationsLeftRight_spec hl hr hh hlean
      rw [if_neg hlt.asymm, if_pos hlt]
      rw [hl', Exec.ok_bind]
      exact ⟨t', ht, hsame.same, hsame.balanced, hheight⟩

theorem balanceAllocated_right (hl : Balanced l) (hr : Balanced r) (hh : calcHeight r = calcHeight l + 2)
    (hkey : Leans key r) :
    ∃ t', balanceAllocated key (withHeight k l r v) = .ok t' ∧ (withHeight k l r v).Same t' ∧ Balanced t' ∧
      calcHeight t' = calcHeight l + 2 := by
  have hnonneg := hl.calcHeight_nonneg
  have h₁ : ¬calcHeight l - calcHeight r > 1 := by omega
  have h₂ : calcHeight l - calcHeight r < -1 := by omega
  cases r with
  | nil => exact hkey.elim
  | node rk rl rr rh rv =>
    simp only [withHeight, balanceAllocated, if_neg h₁, if_pos h₂]
    rw [calcHeight_node] at hh
    rcases hkey with h | ⟨hlt, hlean⟩ | ⟨hlt, hlean⟩
    · omega
    · obtain ⟨r', t', hr', ht, hsame, hheight⟩ := avlRotationsRightLeft_spec hl hr hh hlean
      rw [if_neg hlt.asymm, if_pos hlt]
      rw [hr', Exec.ok_bind]
      exact ⟨t', ht, hsame.same, hsame.balanced, hheight⟩
    · obtain ⟨t', ht, hsame, hheight⟩ := avlRotationsLeft_spec hl hr hh hlean.le
      rw [if_pos hlt]
      exact ⟨t', ht, hsame.same, hsame.balanced, hheight hlean⟩

end BalanceAllocated

/-- `t'` is `t` with one entry more. -/
structure Allocated (key value : ℕ) (t t' : AvlHeader) : Prop where
  ordered : t'.Ordered
  balanced : Balanced t'
  has : ∀ k v, t'.Has k v ↔ (k = key ∧ v = value) ∨ t.Has k v
  height : calcHeight t' = calcHeight t ∨ calcHeight t' = calcHeight t + 1 ∧ Leans key t'

/-- The node above a grown left subtree, before and after its rotation. -/
theorem Allocated.left {key value k v : ℕ} {l l' r : AvlHeader} {h : ℤ} (hl : Allocated key value l l')
    (ho : (SearchTree.node k l r h v).Ordered) (hb : Balanced (.node k l r h v)) (hkey : key < k) :
    ∃ t', balanceAllocated key (withHeight k l' r v) = .ok t' ∧ Allocated key value (.node k l r h v) t' := by
  obtain ⟨-, hor, hlk, hkr⟩ := ho
  obtain ⟨-, hbr, hheight, h₁, h₂⟩ := hb
  have hhas : ∀ key' v', (withHeight k l' r v).Has key' v' ↔
      (key' = key ∧ v' = value) ∨ (SearchTree.node k l r h v).Has key' v' := by
    intro key' v'
    rw [withHeight, SearchTree.has_node, SearchTree.has_node, hl.has]
    tauto
  have hordered : (withHeight k l' r v).Ordered := by
    refine ⟨hl.ordered, hor, fun key' v' h => ?_, hkr⟩
    rcases (hl.has key' v').mp h with ⟨rfl, -⟩ | h
    · exact hkey
    · exact hlk key' v' h
  have hgrown := hl.height
  by_cases hbalance : calcHeight l' ≤ calcHeight r + 1
  · have h₃ : calcHeight r ≤ calcHeight l' + 1 := by omega
    refine ⟨_, balanceAllocated_of_balanced hbalance h₃, hordered, balanced_withHeight hl.balanced hbr hbalance h₃,
      hhas, ?_⟩
    rw [calcHeight_withHeight, calcHeight_node, hheight]
    by_cases hlean : calcHeight r < calcHeight l' ∧ calcHeight l' = calcHeight l + 1
    · exact .inr ⟨by omega, .inr (.inl ⟨hkey, hlean.1⟩)⟩
    · exact .inl (by omega)
  · obtain ⟨t', ht, hsame, hbt, hht⟩ :=
      balanceAllocated_left hl.balanced hbr (by omega) (hgrown.resolve_left (by omega)).2
    refine ⟨t', ht, hsame.ordered.mpr hordered, hbt, fun key' v' => (hsame.has key' v').trans (hhas key' v'), .inl ?_⟩
    rw [hht, calcHeight_node, hheight]
    omega

theorem Allocated.right {key value k v : ℕ} {l r r' : AvlHeader} {h : ℤ} (hr : Allocated key value r r')
    (ho : (SearchTree.node k l r h v).Ordered) (hb : Balanced (.node k l r h v)) (hkey : k < key) :
    ∃ t', balanceAllocated key (withHeight k l r' v) = .ok t' ∧ Allocated key value (.node k l r h v) t' := by
  obtain ⟨hol, -, hlk, hkr⟩ := ho
  obtain ⟨hbl, -, hheight, h₁, h₂⟩ := hb
  have hhas : ∀ key' v', (withHeight k l r' v).Has key' v' ↔
      (key' = key ∧ v' = value) ∨ (SearchTree.node k l r h v).Has key' v' := by
    intro key' v'
    rw [withHeight, SearchTree.has_node, SearchTree.has_node, hr.has]
    tauto
  have hordered : (withHeight k l r' v).Ordered := by
    refine ⟨hol, hr.ordered, hlk, fun key' v' h => ?_⟩
    rcases (hr.has key' v').mp h with ⟨rfl, -⟩ | h
    · exact hkey
    · exact hkr key' v' h
  have hgrown := hr.height
  by_cases hbalance : calcHeight r' ≤ calcHeight l + 1
  · have h₃ : calcHeight l ≤ calcHeight r' + 1 := by omega
    refine ⟨_, balanceAllocated_of_balanced h₃ hbalance, hordered, balanced_withHeight hbl hr.balanced h₃ hbalance,
      hhas, ?_⟩
    rw [calcHeight_withHeight, calcHeight_node, hheight]
    by_cases hlean : calcHeight l < calcHeight r' ∧ calcHeight r' = calcHeight r + 1
    · exact .inr ⟨by omega, .inr (.inr ⟨hkey, hlean.1⟩)⟩
    · exact .inl (by omega)
  · obtain ⟨t', ht, hsame, hbt, hht⟩ :=
      balanceAllocated_right hbl hr.balanced (by omega) (hgrown.resolve_left (by omega)).2
    refine ⟨t', ht, hsame.ordered.mpr hordered, hbt, fun key' v' => (hsame.has key' v').trans (hhas key' v'), .inl ?_⟩
    rw [hht, calcHeight_node, hheight]
    omega

/-- The second insertion of a key halts. -/
theorem avlAllocateL_present {key v : ℕ} (value : ℕ) {t : AvlHeader} (ho : t.Ordered) (h : t.Has key v) :
    avlAllocateL key value t = .error .halt := by
  induction t with
  | nil => exact h.elim
  | node k l r height w ihl ihr =>
    obtain ⟨hol, hor, hlk, hkr⟩ := ho
    rw [avlAllocateL]
    rcases h with ⟨rfl, -⟩ | h | h
    · rw [if_neg (lt_irrefl _), if_neg (lt_irrefl _)]
    · rw [if_pos (hlk key v h), ihl hol h, Exec.error_bind]
    · have hlt := hkr key v h
      rw [if_neg hlt.not_gt, if_pos hlt, ihr hor h, Exec.error_bind]


/-- Inserting an absent key succeeds. -/
theorem avlAllocateL_spec {key : ℕ} (value : ℕ) {t : AvlHeader} (ho : t.Ordered) (hb : Balanced t)
    (habsent : ∀ v, ¬t.Has key v) : ∃ t', avlAllocateL key value t = .ok t' ∧ Allocated key value t t' := by
  induction t with
  | nil =>
    refine ⟨_, rfl, ⟨trivial, trivial, by simp, by simp⟩, ⟨trivial, trivial, ?_⟩, by simp, .inr ⟨rfl, .inl rfl⟩⟩
    simp
  | node k l r h v ihl ihr =>
    rw [avlAllocateL]
    rcases lt_trichotomy key k with hlt | rfl | hlt
    · obtain ⟨l', hl', hl⟩ := ihl ho.1 hb.1 fun v hv => habsent v (.inr (.inl hv))
      rw [if_pos hlt, hl', Exec.ok_bind]
      exact hl.left ho hb hlt
    · exact absurd (.inl ⟨rfl, rfl⟩) (habsent v)
    · obtain ⟨r', hr', hr⟩ := ihr ho.2.1 hb.2.1 fun v hv => habsent v (.inr (.inr hv))
      rw [if_neg hlt.asymm, if_pos hlt, hr', Exec.ok_bind]
      exact hr.right ho hb hlt

/-! ### Removal -/

/-- A node whose children differ by at most two in height is mended: a balanced
node stays, the others keep their height or lose one. -/
theorem balanceUnregistered_spec {k v : ℕ} {l r : AvlHeader} (hl : Balanced l) (hr : Balanced r)
    (h₁ : calcHeight l ≤ calcHeight r + 2) (h₂ : calcHeight r ≤ calcHeight l + 2) :
    ∃ t', balanceUnregistered (withHeight k l r v) = .ok t' ∧ (withHeight k l r v).Same t' ∧ Balanced t' ∧
      (calcHeight t' = 1 + max (calcHeight l) (calcHeight r) ∨
        calcHeight t' = max (calcHeight l) (calcHeight r) ∧
          (calcHeight l = calcHeight r + 2 ∨ calcHeight r = calcHeight l + 2)) := by
  have hnonnegl := hl.calcHeight_nonneg
  have hnonnegr := hr.calcHeight_nonneg
  by_cases hleft : calcHeight l - calcHeight r > 1
  · obtain ⟨lk, ll, lr, lh, lv, rfl⟩ := Balanced.exists_node (t := l) (by omega)
    simp only [withHeight, balanceUnregistered, if_pos hleft]
    simp only [calcHeight_node] at *
    by_cases hbalance : calcBalance (.node lk ll lr lh lv) ≥ 0
    · have hlean : calcHeight lr ≤ calcHeight ll := by rw [calcBalance] at hbalance; omega
      obtain ⟨t', ht, hsame, -⟩ := avlRotationsRight_spec hl hr (by omega) hlean
      rw [if_pos hbalance]
      refine ⟨t', ht, hsame.same, hsame.balanced, ?_⟩
      have := hsame.height
      omega
    · have hlean : calcHeight ll < calcHeight lr := by rw [calcBalance] at hbalance; omega
      obtain ⟨l', t', hl', ht, hsame, hheight⟩ := avlRotationsLeftRight_spec hl hr (by omega) hlean
      rw [if_neg hbalance, hl', Exec.ok_bind]
      exact ⟨t', ht, hsame.same, hsame.balanced, by omega⟩
  · by_cases hright : calcHeight l - calcHeight r < -1
    · obtain ⟨rk, rl, rr, rh, rv, rfl⟩ := Balanced.exists_node (t := r) (by omega)
      simp only [withHeight, balanceUnregistered, if_neg hleft, if_pos hright]
      simp only [calcHeight_node] at *
      by_cases hbalance : calcBalance (.node rk rl rr rh rv) ≤ 0
      · have hlean : calcHeight rl ≤ calcHeight rr := by rw [calcBalance] at hbalance; omega
        obtain ⟨t', ht, hsame, -⟩ := avlRotationsLeft_spec hl hr (by omega) hlean
        rw [if_pos hbalance]
        refine ⟨t', ht, hsame.same, hsame.balanced, ?_⟩
        have := hsame.height
        omega
      · have hlean : calcHeight rr < calcHeight rl := by rw [calcBalance] at hbalance; omega
        obtain ⟨r', t', hr', ht, hsame, hheight⟩ := avlRotationsRightLeft_spec hl hr (by omega) hlean
        rw [if_neg hbalance, hr', Exec.ok_bind]
        exact ⟨t', ht, hsame.same, hsame.balanced, by omega⟩
    · simp only [withHeight, balanceUnregistered, if_neg hleft, if_neg hright]
      exact ⟨_, rfl, SearchTree.Same.refl _, balanced_withHeight hl hr (by omega) (by omega), .inl rfl⟩

/-- `t'` is `t` without the entry of the key. -/
structure Unregistered (key : ℕ) (t t' : AvlHeader) : Prop where
  ordered : t'.Ordered
  balanced : Balanced t'
  has : ∀ k v, t'.Has k v ↔ t.Has k v ∧ k ≠ key
  height : calcHeight t' = calcHeight t ∨ calcHeight t' = calcHeight t - 1

/-- The node above a subtree that lost an entry. -/
theorem Unregistered.of_node {key k v k' v' : ℕ} {l r l' r' : AvlHeader} {h : ℤ}
    (hb : Balanced (.node k l r h v)) (hl' : Balanced l') (hr' : Balanced r')
    (hl : calcHeight l' = calcHeight l ∧ (calcHeight r' = calcHeight r ∨ calcHeight r' = calcHeight r - 1) ∨
      calcHeight r' = calcHeight r ∧ calcHeight l' = calcHeight l - 1)
    (ho : (withHeight k' l' r' v').Ordered)
    (hhas : ∀ x w, (withHeight k' l' r' v').Has x w ↔ (SearchTree.node k l r h v).Has x w ∧ x ≠ key) :
    ∃ t', balanceUnregistered (withHeight k' l' r' v') = .ok t' ∧ Unregistered key (.node k l r h v) t' := by
  obtain ⟨-, -, hheight, h₁, h₂⟩ := hb
  obtain ⟨t', ht, hsame, hbt, hht⟩ := balanceUnregistered_spec (k := k') (v := v') hl' hr' (by omega) (by omega)
  refine ⟨t', ht, hsame.ordered.mpr ho, hbt, fun x w => (hsame.has x w).trans (hhas x w), ?_⟩
  rw [calcHeight_node, hheight]
  omega

/-- What is left of a node and its smaller or larger part. -/
theorem Unregistered.left {key k v : ℕ} {l l' r : AvlHeader} {h : ℤ} (hl : Unregistered key l l')
    (ho : (SearchTree.node k l r h v).Ordered) (hb : Balanced (.node k l r h v)) (hkey : key < k) :
    ∃ t', balanceUnregistered (withHeight k l' r v) = .ok t' ∧ Unregistered key (.node k l r h v) t' := by
  obtain ⟨-, hor, hlk, hkr⟩ := ho
  have hgrown := hl.height
  refine of_node hb hl.balanced hb.2.1 (by omega) ?_ fun x w => ?_
  · exact ⟨hl.ordered, hor, fun x w hx => hlk x w ((hl.has x w).mp hx).1, hkr⟩
  · rw [withHeight, SearchTree.has_node, SearchTree.has_node, hl.has]
    have hr : r.Has x w → x ≠ key := fun hx => (hkey.trans (hkr x w hx)).ne'
    have hk : x = k → x ≠ key := fun hx => hx ▸ hkey.ne'
    tauto

theorem Unregistered.right {key k v : ℕ} {l r r' : AvlHeader} {h : ℤ} (hr : Unregistered key r r')
    (ho : (SearchTree.node k l r h v).Ordered) (hb : Balanced (.node k l r h v)) (hkey : k < key) :
    ∃ t', balanceUnregistered (withHeight k l r' v) = .ok t' ∧ Unregistered key (.node k l r h v) t' := by
  obtain ⟨hol, -, hlk, hkr⟩ := ho
  have hgrown := hr.height
  refine of_node hb hb.1 hr.balanced (by omega) ?_ fun x w => ?_
  · exact ⟨hol, hr.ordered, hlk, fun x w hx => hkr x w ((hr.has x w).mp hx).1⟩
  · rw [withHeight, SearchTree.has_node, SearchTree.has_node, hr.has]
    have hl : l.Has x w → x ≠ key := fun hx => ((hlk x w hx).trans hkey).ne
    have hk : x = k → x ≠ key := fun hx => hx ▸ hkey.ne
    tauto

/-- The only child takes the place of its parent. -/
theorem Unregistered.child {key ck v cv : ℕ} {l r cl cr : AvlHeader} {h ch : ℤ}
    (ho : (SearchTree.node key l r h v).Ordered) (hb : Balanced (.node key l r h v))
    (hc : (l = .node ck cl cr ch cv ∧ r = .nil) ∨ (l = .nil ∧ r = .node ck cl cr ch cv)) :
    ∃ t', balanceUnregistered (withHeight ck cl cr cv) = .ok t' ∧ Unregistered key (.node key l r h v) t' := by
  obtain ⟨hol, hor, hlk, hkr⟩ := ho
  obtain ⟨hbl, hbr, hheight, h₁, h₂⟩ := hb
  have hchild : (SearchTree.node ck cl cr ch cv).Ordered ∧ Balanced (.node ck cl cr ch cv) ∧ h = 1 + ch ∧
      ∀ x w, (SearchTree.node ck cl cr ch cv).Has x w ↔ (SearchTree.node key l r h v).Has x w ∧ x ≠ key := by
    rcases hc with ⟨rfl, rfl⟩ | ⟨rfl, rfl⟩
    · have hnonneg := hbl.calcHeight_nonneg
      rw [calcHeight_node] at *
      refine ⟨hol, hbl, by rw [hheight, calcHeight_nil]; omega, fun x w => ?_⟩
      have := hlk x w
      rw [SearchTree.has_node key]
      simp only [SearchTree.has_nil, or_false]
      grind
    · have hnonneg := hbr.calcHeight_nonneg
      rw [calcHeight_node] at *
      refine ⟨hor, hbr, by rw [hheight, calcHeight_nil]; omega, fun x w => ?_⟩
      have := hkr x w
      rw [SearchTree.has_node key]
      simp only [SearchTree.has_nil, false_or]
      grind
  obtain ⟨hoc, hbc, hh, hhas⟩ := hchild
  have hbc' := hbc
  obtain ⟨hbcl, hbcr, hch, hc₁, hc₂⟩ := hbc'
  obtain ⟨t', ht, hsame, hbt, hht⟩ :=
    balanceUnregistered_spec (k := ck) (v := cv) hbcl hbcr (by omega) (by omega)
  refine ⟨t', ht, hsame.ordered.mpr hoc, hbt, fun x w => (hsame.has x w).trans (hhas x w), .inr ?_⟩
  rw [calcHeight_node]
  omega

/-- The successor takes the place of the node. -/
theorem Unregistered.successor {k sk v sv : ℕ} {l r r' : AvlHeader} {h : ℤ} (hr : Unregistered sk r r')
    (hs : r.Has sk sv) (hmin : ∀ x w, r.Has x w → sk ≤ x)
    (ho : (SearchTree.node k l r h v).Ordered) (hb : Balanced (.node k l r h v)) :
    ∃ t', balanceUnregistered (withHeight sk l r' sv) = .ok t' ∧ Unregistered k (.node k l r h v) t' := by
  obtain ⟨hol, hor, hlk, hkr⟩ := ho
  have hgrown := hr.height
  have hks := hkr sk sv hs
  refine of_node hb hb.1 hr.balanced (by omega) ?_ fun x w => ?_
  · refine ⟨hol, hr.ordered, fun x w hx => (hlk x w hx).trans hks, fun x w hx => ?_⟩
    obtain ⟨hx, hne⟩ := (hr.has x w).mp hx
    exact lt_of_le_of_ne (hmin x w hx) hne.symm
  · rw [withHeight, SearchTree.has_node, SearchTree.has_node, hr.has]
    have hl : l.Has x w → x ≠ k := fun hx => (hlk x w hx).ne
    have hrk : r.Has x w → x ≠ k := fun hx => (hkr x w hx).ne'
    have hsx : r.Has x w ∧ x = sk ↔ x = sk ∧ w = sv := by
      constructor
      · rintro ⟨hx, rfl⟩
        exact ⟨rfl, hor.unique hx hs⟩
      · rintro ⟨rfl, rfl⟩
        exact ⟨hs, rfl⟩
    have hsk : x = sk → x ≠ k := fun hx => hx ▸ hks.ne'
    grind

/-- Removing any key succeeds. -/
theorem avlUnregisterL_spec (key : ℕ) {t : AvlHeader} (ho : t.Ordered) (hb : Balanced t) :
    ∃ t' target, avlUnregisterL key t = .ok (t', target) ∧ Unregistered key t t' := by
  induction t generalizing key with
  | nil => exact ⟨_, _, rfl, trivial, trivial, by simp, .inl rfl⟩
  | node k l r h v ihl ihr =>
    rcases lt_trichotomy key k with hlt | rfl | hlt
    · obtain ⟨l', target, hl', hl⟩ := ihl key ho.1 hb.1
      obtain ⟨t', ht, hspec⟩ := hl.left ho hb hlt
      rw [avlUnregisterL.eq_def]
      simp only [if_pos hlt, hl', Exec.ok_bind, ht]
      exact ⟨t', target, rfl, hspec⟩
    · rw [avlUnregisterL.eq_def]
      simp only [lt_irrefl, if_false]
      cases l with
      | nil =>
        cases r with
        | nil =>
          refine ⟨_, _, rfl, trivial, trivial, fun x w => ?_, .inr ?_⟩
          · simp only [SearchTree.has_node, SearchTree.has_nil]
            tauto
          · rw [calcHeight_node, hb.2.2.1]
            rfl
        | node ck cl cr ch cv =>
          obtain ⟨t', ht, hspec⟩ := Unregistered.child ho hb (.inr ⟨rfl, rfl⟩)
          simp only [ht, Exec.ok_bind]
          exact ⟨t', cv, rfl, hspec⟩
      | node lk ll lr lh lv =>
        cases r with
        | nil =>
          obtain ⟨t', ht, hspec⟩ := Unregistered.child ho hb (.inl ⟨rfl, rfl⟩)
          simp only [ht, Exec.ok_bind]
          exact ⟨t', lv, rfl, hspec⟩
        | node rk rl rr rh rv =>
          obtain ⟨hs, hmin⟩ := ho.2.1.first_spec
          obtain ⟨r', target, hr', hr⟩ := ihr (rl.first rk rv).1 ho.2.1 hb.2.1
          obtain ⟨t', ht, hspec⟩ := hr.successor hs hmin ho hb
          simp only [avlMinKeyNode, Exec.ok_bind, hr', ht]
          exact ⟨t', target, rfl, hspec⟩
    · obtain ⟨r', target, hr', hr⟩ := ihr key ho.2.1 hb.2.1
      obtain ⟨t', ht, hspec⟩ := hr.right ho hb hlt
      rw [avlUnregisterL.eq_def]
      simp only [if_neg hlt.asymm, if_pos hlt, hr', Exec.ok_bind, ht]
      exact ⟨t', target, rfl, hspec⟩

/-! ### Runs -/

theorem avlLookup_eq_find (t : AvlHeader) (key : ℕ) : avlLookup t key = (t.find key).getD 0 := by
  induction t with
  | nil => rfl
  | node k l r h v ihl ihr =>
    rw [avlLookup, SearchTree.find]
    split_ifs
    · exact ihr
    · exact ihl
    · rfl

/-- The operations on a tree. -/
inductive Operation where
  | allocate (key value : ℕ)
  | unregister (key : ℕ)
  deriving DecidableEq, Repr

def step (first : AvlHeader) : Operation → Exec AvlHeader
  | .allocate key value => avlAllocate first key value
  | .unregister key => do
    let (first, _) ← avlUnregister first key
    .ok first

/-- The finite map the tree stands for. -/
abbrev Entries := ℕ → Option ℕ

/-- The operations on the map. -/
def Entries.step (m : Entries) : Operation → Entries
  | .allocate key value => Function.update m key (some value)
  | .unregister key => Function.update m key none

/-- Every key is absent from the map when it is allocated. -/
def Entries.Legal : Entries → List Operation → Prop
  | _, [] => True
  | m, .allocate key value :: ops => m key = none ∧ Legal (m.step (.allocate key value)) ops
  | m, .unregister key :: ops => Legal (m.step (.unregister key)) ops

/-- Stored heights are the true ones, and the subtrees of every node differ in
height by at most one. -/
def AvlShape : AvlHeader → Prop
  | .nil => True
  | .node k l r h v => AvlShape l ∧ AvlShape r ∧ h = trueHeight (.node k l r h v) ∧ |trueHeight l - trueHeight r| ≤ 1

theorem Balanced.avlShape {t : AvlHeader} (h : Balanced t) : AvlShape t := by
  induction t with
  | nil => trivial
  | node k l r i v ihl ihr =>
    have hheight : i = trueHeight (.node k l r i v) := h.calcHeight_eq_trueHeight
    obtain ⟨hl, hr, -, h₁, h₂⟩ := h
    rw [hl.calcHeight_eq_trueHeight, hr.calcHeight_eq_trueHeight] at h₁ h₂
    exact ⟨ihl hl, ihr hr, hheight, abs_sub_le_iff.mpr ⟨by omega, by omega⟩⟩

/-- The tree is an AVL tree for the map. -/
structure Represents (t : AvlHeader) (m : Entries) : Prop where
  ordered : t.Ordered
  balanced : Balanced t
  has : ∀ k v, t.Has k v ↔ m k = some v

theorem Represents.avlLookup {t : AvlHeader} {m : Entries} (h : Represents t m) (key : ℕ) :
    avlLookup t key = (m key).getD 0 := by
  have hfind : t.find key = m key := by
    apply Option.ext
    intro v
    rw [h.ordered.find_eq_some_iff, h.has]
  rw [avlLookup_eq_find, hfind]

theorem represents_nil : Represents .nil fun _ => none := ⟨trivial, trivial, by simp⟩

theorem Represents.avlAllocate {t : AvlHeader} {m : Entries} (h : Represents t m) {key : ℕ} (value : ℕ)
    (habsent : m key = none) :
    ∃ t', avlAllocate t key value = .ok t' ∧ Represents t' (m.step (.allocate key value)) := by
  have hnone : ∀ v, ¬t.Has key v := by
    intro v hv
    rw [h.has, habsent] at hv
    cases hv
  obtain ⟨t', ht, hspec⟩ := avlAllocateL_spec value h.ordered h.balanced hnone
  refine ⟨t', ht, hspec.ordered, hspec.balanced, fun k v => ?_⟩
  rw [hspec.has, h.has, Entries.step]
  by_cases hk : k = key
  · subst hk
    rw [Function.update_self, habsent, Option.some_inj]
    grind
  · rw [Function.update_of_ne hk]
    tauto

theorem Represents.avlUnregister {t : AvlHeader} {m : Entries} (h : Represents t m) (key : ℕ) :
    ∃ t' removed, avlUnregister t key = .ok (t', removed) ∧ Represents t' (m.step (.unregister key)) := by
  obtain ⟨t', target, ht, hspec⟩ := avlUnregisterL_spec key h.ordered h.balanced
  refine ⟨t', target != 0, ?_, hspec.ordered, hspec.balanced, fun k v => ?_⟩
  · rw [AvlHeader.avlUnregister, ht, Exec.ok_bind]
  · rw [hspec.has, h.has, Entries.step]
    by_cases hk : k = key
    · subst hk
      rw [Function.update_self]
      grind
    · rw [Function.update_of_ne hk]
      tauto

theorem Represents.run {t : AvlHeader} {m : Entries} (h : Represents t m) {ops : List Operation}
    (hops : m.Legal ops) : ∃ t', run step t ops = .ok t' ∧ Represents t' (ops.foldl Entries.step m) := by
  induction ops generalizing t m with
  | nil => exact ⟨t, rfl, h⟩
  | cons o ops ih =>
    cases o with
    | allocate key value =>
      obtain ⟨t', ht, h'⟩ := h.avlAllocate value hops.1
      rw [run_cons, step, ht, Exec.ok_bind]
      exact ih h' hops.2
    | unregister key =>
      obtain ⟨t', removed, ht, h'⟩ := h.avlUnregister key
      rw [run_cons, step, ht]
      exact ih h' hops

/-- The tree implements a finite map: every sequence of operations that allocates
only absent keys succeeds and leaves an ordered AVL tree in which the lookup
returns the entries of the map. -/
theorem avl_run_refines_map (ops : List Operation) (hops : Entries.Legal (fun _ => none) ops) :
    ∃ t, run step .nil ops = .ok t ∧ t.Ordered ∧ AvlShape t ∧
      (∀ k v, t.Has k v ↔ ops.foldl Entries.step (fun _ => none) k = some v) ∧
      ∀ k, avlLookup t k = (ops.foldl Entries.step (fun _ => none) k).getD 0 := by
  obtain ⟨t, ht, h⟩ := represents_nil.run hops
  exact ⟨t, ht, h.ordered, h.balanced.avlShape, h.has, h.avlLookup⟩

/-- Rotations of both kinds, a removed node with one child and one with two. -/
def sampleOperations : List Operation :=
  [.allocate 5 50, .allocate 9 90, .allocate 7 70, .allocate 2 20, .allocate 8 80, .unregister 9, .unregister 7,
    .unregister 3]

theorem avl_run_sample : ∃ t, run step .nil sampleOperations = .ok t ∧ t.Ordered ∧ AvlShape t ∧
    (∀ k v, t.Has k v ↔ sampleOperations.foldl Entries.step (fun _ => none) k = some v) ∧
    ∀ k, avlLookup t k = (sampleOperations.foldl Entries.step (fun _ => none) k).getD 0 :=
  avl_run_refines_map sampleOperations ⟨rfl, rfl, rfl, rfl, rfl, trivial⟩

end AvlHeader

end DualFuse.Utility
