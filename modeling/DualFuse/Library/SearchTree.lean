import Mathlib.Tactic

/-! Binary search trees whose nodes carry a key, a value and some further
information that the order does not depend on. A tree is read as the relation
between its keys and values; in an ordered tree this relation is a partial
function and the search computes it. Rotations keep both. -/

namespace DualFuse.Library

universe u

inductive SearchTree (κ η ν : Type u) where
  | nil
  | node (key : κ) (left right : SearchTree κ η ν) (info : η) (value : ν)
  deriving DecidableEq, Repr

namespace SearchTree

variable {κ η ν : Type u}

/-- The tree holds the value under the key. -/
def Has : SearchTree κ η ν → κ → ν → Prop
  | nil, _, _ => False
  | node k l r _ v, key, value => (key = k ∧ value = v) ∨ l.Has key value ∨ r.Has key value

@[simp] theorem has_nil (k : κ) (v : ν) : ¬(nil : SearchTree κ η ν).Has k v := id

@[simp] theorem has_node (k key : κ) (l r : SearchTree κ η ν) (i : η) (v value : ν) :
    (node k l r i v).Has key value ↔ (key = k ∧ value = v) ∨ l.Has key value ∨ r.Has key value := Iff.rfl

theorem has_rotate {x y key : κ} {a b c : SearchTree κ η ν} {i j i' j' : η} {v w value : ν} :
    (node x a (node y b c j' w) i' v).Has key value ↔ (node y (node x a b i v) c j w).Has key value := by
  simp only [has_node]
  tauto

variable [LinearOrder κ]

/-- Keys on the left are smaller and keys on the right are larger, at every node. -/
def Ordered : SearchTree κ η ν → Prop
  | nil => True
  | node k l r _ _ => l.Ordered ∧ r.Ordered ∧ (∀ key value, l.Has key value → key < k) ∧
    ∀ key value, r.Has key value → k < key

theorem ordered_rotate {x y : κ} {a b c : SearchTree κ η ν} {i j i' j' : η} {v w : ν} :
    (node x a (node y b c j' w) i' v).Ordered ↔ (node y (node x a b i v) c j w).Ordered := by
  constructor
  · rintro ⟨ha, ⟨hb, hc, hby, hcy⟩, hax, hxr⟩
    have hxy : x < y := hxr y w (.inl ⟨rfl, rfl⟩)
    refine ⟨⟨ha, hb, hax, fun key value h => hxr key value (.inr (.inl h))⟩, hc, fun key value h => ?_, hcy⟩
    rcases h with ⟨rfl, -⟩ | h | h
    · exact hxy
    · exact (hax key value h).trans hxy
    · exact hby key value h
  · rintro ⟨⟨ha, hb, hax, hbx⟩, hc, hly, hcy⟩
    have hxy : x < y := hly x v (.inl ⟨rfl, rfl⟩)
    refine ⟨ha, ⟨hb, hc, fun key value h => hly key value (.inr (.inr h)), hcy⟩, hax, fun key value h => ?_⟩
    rcases h with ⟨rfl, -⟩ | h | h
    · exact hxy
    · exact hbx key value h
    · exact hxy.trans (hcy key value h)

/-- Two trees with the same entries, of which both are ordered or neither. -/
structure Same (t t' : SearchTree κ η ν) : Prop where
  has : ∀ key value, t'.Has key value ↔ t.Has key value
  ordered : t'.Ordered ↔ t.Ordered

theorem Same.refl (t : SearchTree κ η ν) : t.Same t := ⟨fun _ _ => Iff.rfl, Iff.rfl⟩

theorem Same.trans {t t' t'' : SearchTree κ η ν} (h : t.Same t') (h' : t'.Same t'') : t.Same t'' :=
  ⟨fun key value => (h'.has key value).trans (h.has key value), h'.ordered.trans h.ordered⟩

theorem Same.node {l l' r r' : SearchTree κ η ν} (hl : l.Same l') (hr : r.Same r') (k : κ) (i i' : η) (v : ν) :
    (node k l r i v).Same (node k l' r' i' v) := by
  constructor
  · intro key value
    rw [has_node, has_node, hl.has, hr.has]
  · simp only [Ordered, hl.ordered, hr.ordered, hl.has, hr.has]

theorem same_rotateRight (x y : κ) (a b c : SearchTree κ η ν) (i j i' j' : η) (v w : ν) :
    (SearchTree.node y (.node x a b i v) c j w).Same (.node x a (.node y b c j' w) i' v) :=
  ⟨fun _ _ => has_rotate, ordered_rotate⟩

theorem same_rotateLeft (x y : κ) (a b c : SearchTree κ η ν) (i j i' j' : η) (v w : ν) :
    (SearchTree.node x a (.node y b c j' w) i' v).Same (.node y (.node x a b i v) c j w) :=
  ⟨fun _ _ => has_rotate.symm, ordered_rotate.symm⟩

/-- Search by key. -/
def find : SearchTree κ η ν → κ → Option ν
  | nil, _ => none
  | node k l r _ v, key => if k < key then r.find key else if key < k then l.find key else some v

/-- In an ordered tree the search finds exactly what the tree holds. -/
theorem Ordered.find_eq_some_iff {t : SearchTree κ η ν} (h : t.Ordered) (key : κ) (value : ν) :
    t.find key = some value ↔ t.Has key value := by
  induction t with
  | nil => simp [find]
  | node k l r i v ihl ihr =>
    obtain ⟨hl, hr, hlk, hkr⟩ := h
    simp only [find, has_node]
    split_ifs with h₁ h₂
    · rw [ihr hr]
      refine ⟨fun hx => .inr (.inr hx), ?_⟩
      rintro (⟨rfl, -⟩ | hx | hx)
      · exact absurd h₁ (lt_irrefl _)
      · exact absurd (hlk key value hx) h₁.asymm
      · exact hx
    · rw [ihl hl]
      refine ⟨fun hx => .inr (.inl hx), ?_⟩
      rintro (⟨rfl, -⟩ | hx | hx)
      · exact absurd h₂ (lt_irrefl _)
      · exact hx
      · exact absurd (hkr key value hx) h₂.asymm
    · have hkey : key = k := le_antisymm (not_lt.mp h₁) (not_lt.mp h₂)
      subst hkey
      constructor
      · intro hv
        exact .inl ⟨rfl, (Option.some.inj hv).symm⟩
      · rintro (⟨-, rfl⟩ | hx | hx)
        · rfl
        · exact absurd (hlk key value hx) (lt_irrefl _)
        · exact absurd (hkr key value hx) (lt_irrefl _)

theorem Ordered.unique {t : SearchTree κ η ν} (h : t.Ordered) {key : κ} {v w : ν} (hv : t.Has key v)
    (hw : t.Has key w) : v = w := by
  rw [← h.find_eq_some_iff] at hv hw
  exact Option.some.inj (hv.symm.trans hw)

/-- The first entry of the subtree under a node, from the node's own entry on. -/
def first (k : κ) (v : ν) : SearchTree κ η ν → κ × ν
  | nil => (k, v)
  | node k' l _ _ v' => first k' v' l

/-- The first entry of a tree is held, and no key is smaller. -/
theorem Ordered.first_spec {k : κ} {l r : SearchTree κ η ν} {i : η} {v : ν} (h : (node k l r i v).Ordered) :
    (node k l r i v).Has (first k v l).1 (first k v l).2 ∧
      ∀ key value, (node k l r i v).Has key value → (first k v l).1 ≤ key := by
  induction l generalizing k r i v with
  | nil =>
    refine ⟨.inl ⟨rfl, rfl⟩, ?_⟩
    rintro key value (⟨rfl, -⟩ | hx | hx)
    · exact le_rfl
    · exact absurd hx (has_nil key value)
    · exact (h.2.2.2 key value hx).le
  | node k' l' r' i' v' ih _ =>
    obtain ⟨hl, -, hlk, hkr⟩ := h
    obtain ⟨hhas, hmin⟩ := ih hl
    have hlt := hlk _ _ hhas
    refine ⟨.inr (.inl hhas), ?_⟩
    rintro key value (⟨rfl, -⟩ | hx | hx)
    · exact hlt.le
    · exact hmin key value hx
    · exact (hlt.trans (hkr key value hx)).le

end SearchTree

end DualFuse.Library
