import DualFuse.Utility.AvlTree

/-! The result of `AVLUnregister` (`utility/avl_tree.cpp`). It is made from the value of the node
that is freed: the removed node itself where that is a leaf, else its only child, and where
it has two children the same of its successor. -/

namespace DualFuse.Utility.AvlHeader

open Library

/-- `AVLUnregisterL` with `*target` before and after the call. -/
def avlUnregisterTo (key : ℕ) : AvlHeader → ℕ → Exec (AvlHeader × ℕ)
  | .nil, target => .ok (.nil, target)
  | .node k l r _ v, target =>
    if key < k then do
      let (l, target) ← avlUnregisterTo key l target
      let root ← balanceUnregistered (withHeight k l r v)
      .ok (root, target)
    else if key > k then do
      let (r, target) ← avlUnregisterTo key r target
      let root ← balanceUnregistered (withHeight k l r v)
      .ok (root, target)
    else
      match l, r with
      | .nil, .nil => if target ≠ 0 then .error .assertion else .ok (.nil, v)
      | .node ck cl cr _ cv, .nil | .nil, .node ck cl cr _ cv =>
        if target ≠ 0 then .error .assertion
        else do
          let root ← balanceUnregistered (withHeight ck cl cr cv)
          .ok (root, cv)
      | .node _ _ _ _ _, .node _ _ _ _ _ => do
        let (sk, sv) ← avlMinKeyNode r
        let (r, target) ← avlUnregisterTo sk r target
        let root ← balanceUnregistered (withHeight sk l r sv)
        .ok (root, target)

/-- `AVLUnregister` with its assertion. -/
def avlUnregisterAsserted (first : AvlHeader) (key : ℕ) : Exec (AvlHeader × Bool) := do
  let (first, target) ← avlUnregisterTo key first 0
  .ok (first, target != 0)

/-- The target is written once, so it is zero where it is asserted to be. -/
theorem avlUnregisterTo_zero (key : ℕ) (t : AvlHeader) : avlUnregisterTo key t 0 = avlUnregisterL key t := by
  induction t generalizing key with
  | nil => rfl
  | node k l r h v ihl ihr =>
    rw [avlUnregisterTo.eq_def, avlUnregisterL.eq_def]
    simp only [ihl key, ihr key]
    cases l with
    | nil =>
      cases r with
      | nil => simp
      | node ck cl cr ch cv => simp
    | node lk ll lr lh lv =>
      cases r with
      | nil => simp
      | node rk rl rr rh rv => simp only [avlMinKeyNode, Exec.ok_bind, ihr]

theorem avlUnregisterAsserted_eq (first : AvlHeader) (key : ℕ) :
    avlUnregisterAsserted first key = avlUnregister first key := by
  rw [avlUnregisterAsserted, avlUnregister, avlUnregisterTo_zero]

/-- The value of the node that is freed for the least key. -/
def leastFreed : AvlHeader → ℕ
  | .nil => 0
  | .node _ .nil .nil _ v => v
  | .node _ .nil (.node _ _ _ _ cv) _ _ => cv
  | .node _ (.node k l r h v) _ _ _ => leastFreed (.node k l r h v)

/-- The value of the node that is freed for a key. -/
def freedValue (key : ℕ) : AvlHeader → Option ℕ
  | .nil => none
  | .node k l r _ v =>
    if key < k then freedValue key l
    else if key > k then freedValue key r
    else
      match l, r with
      | .nil, .nil => some v
      | .node _ _ _ _ cv, .nil | .nil, .node _ _ _ _ cv => some cv
      | .node _ _ _ _ _, .node _ _ _ _ _ => some (leastFreed r)

theorem freedValue_least {k v : ℕ} {l r : AvlHeader} {h : ℤ} (ho : (SearchTree.node k l r h v).Ordered) :
    freedValue (l.first k v).1 (.node k l r h v) = some (leastFreed (.node k l r h v)) := by
  induction l generalizing k r h v with
  | nil =>
    cases r with
    | nil => simp [freedValue, SearchTree.first, leastFreed]
    | node rk rl rr rh rv => simp [freedValue, SearchTree.first, leastFreed]
  | node lk ll lr lh lv ih _ =>
    have hlt : (ll.first lk lv).1 < k := ho.2.2.1 _ _ ho.1.first_spec.1
    have hleast := ih ho.1
    rw [SearchTree.first, freedValue.eq_def]
    simp only [if_pos hlt, leastFreed]
    exact hleast

/-- A node is freed exactly for the keys of the tree. -/
theorem freedValue_isSome_iff {key : ℕ} {t : AvlHeader} (ho : t.Ordered) :
    (freedValue key t).isSome = true ↔ ∃ v, t.Has key v := by
  induction t with
  | nil => simp [freedValue]
  | node k l r h v ihl ihr =>
    obtain ⟨hol, hor, hlk, hkr⟩ := ho
    rw [freedValue.eq_def]
    simp only [SearchTree.has_node]
    rcases lt_trichotomy key k with hlt | rfl | hlt
    · rw [if_pos hlt, ihl hol]
      refine exists_congr fun w => ⟨fun hw => .inr (.inl hw), ?_⟩
      rintro (⟨rfl, -⟩ | hw | hw)
      · exact absurd hlt (lt_irrefl _)
      · exact hw
      · exact absurd (hkr key w hw) hlt.asymm
    · simp only [lt_irrefl, if_false]
      refine iff_of_true ?_ ⟨v, .inl ⟨trivial, rfl⟩⟩
      cases l with
      | nil => cases r <;> rfl
      | node lk ll lr lh lv => cases r <;> rfl
    · rw [if_neg hlt.asymm, if_pos hlt, ihr hor]
      refine exists_congr fun w => ⟨fun hw => .inr (.inr hw), ?_⟩
      rintro (⟨rfl, -⟩ | hw | hw)
      · exact absurd hlt (lt_irrefl _)
      · exact absurd (hlk key w hw) hlt.asymm
      · exact hw

/-- The target is the value of the node that was freed. -/
theorem avlUnregisterL_target {key target : ℕ} {t t' : AvlHeader} (ho : t.Ordered)
    (h : avlUnregisterL key t = .ok (t', target)) : target = (freedValue key t).getD 0 := by
  induction t generalizing key target t' with
  | nil =>
    cases h
    rfl
  | node k l r height v ihl ihr =>
    rw [avlUnregisterL.eq_def] at h
    rw [freedValue.eq_def]
    rcases lt_trichotomy key k with hlt | rfl | hlt
    · simp only [if_pos hlt] at h ⊢
      obtain ⟨⟨l', target'⟩, hl, h⟩ := Exec.bind_ok_iff.mp h
      obtain ⟨root, -, h⟩ := Exec.bind_ok_iff.mp h
      cases h
      exact ihl ho.1 hl
    · simp only [lt_irrefl, if_false] at h ⊢
      cases l with
      | nil =>
        cases r with
        | nil =>
          cases h
          rfl
        | node ck cl cr ch cv =>
          obtain ⟨root, -, h⟩ := Exec.bind_ok_iff.mp h
          cases h
          rfl
      | node lk ll lr lh lv =>
        cases r with
        | nil =>
          obtain ⟨root, -, h⟩ := Exec.bind_ok_iff.mp h
          cases h
          rfl
        | node rk rl rr rh rv =>
          simp only [avlMinKeyNode, Exec.ok_bind] at h
          obtain ⟨⟨r', target'⟩, hr, h⟩ := Exec.bind_ok_iff.mp h
          obtain ⟨root, -, h⟩ := Exec.bind_ok_iff.mp h
          cases h
          rw [ihr ho.2.1 hr, freedValue_least ho.2.1]
    · simp only [if_neg hlt.asymm, if_pos hlt] at h ⊢
      obtain ⟨⟨r', target'⟩, hr, h⟩ := Exec.bind_ok_iff.mp h
      obtain ⟨root, -, h⟩ := Exec.bind_ok_iff.mp h
      cases h
      exact ihr ho.2.1 hr

/-- A key that is in the tree halts the system. -/
theorem avlAllocateL_of_has {key : ℕ} (value : ℕ) {t : AvlHeader} {v : ℕ} (ho : t.Ordered) (hv : t.Has key v) :
    avlAllocateL key value t = .error .halt := by
  induction t with
  | nil => exact absurd hv (SearchTree.has_nil key v)
  | node k l r h w ihl ihr =>
    obtain ⟨hol, hor, hlk, hkr⟩ := ho
    rw [avlAllocateL]
    rcases hv with ⟨rfl, rfl⟩ | hv | hv
    · simp
    · rw [if_pos (hlk key v hv), ihl hol hv, Exec.error_bind]
    · rw [if_neg (hkr key v hv).asymm, if_pos (hkr key v hv), ihr hor hv, Exec.error_bind]

/-- The calls that allocate these keys with these values. -/
def allocations (entries : List (ℕ × ℕ)) : List Operation := entries.map fun e => .allocate e.1 e.2

theorem represents_allocations {entries : List (ℕ × ℕ)} {t t' : AvlHeader} {m : Entries} (h : Represents t m)
    (hrun : run step t (allocations entries) = .ok t') :
    ∃ m', Represents t' m' ∧ ∀ key, m' key ≠ none ↔ m key ≠ none ∨ key ∈ entries.map Prod.fst := by
  induction entries generalizing t m with
  | nil =>
    cases hrun
    exact ⟨m, h, by simp⟩
  | cons e entries ih =>
    rw [allocations, List.map_cons, run_cons] at hrun
    cases habsent : m e.1 with
    | some v =>
      have hhalt : step t (.allocate e.1 e.2) = .error .halt :=
        avlAllocateL_of_has e.2 h.ordered ((h.has e.1 v).mpr habsent)
      rw [hhalt, Exec.error_bind] at hrun
      cases hrun
    | none =>
      obtain ⟨t₁, ht₁, h₁⟩ := h.avlAllocate e.2 habsent
      have hstep : step t (.allocate e.1 e.2) = .ok t₁ := ht₁
      rw [hstep, Exec.ok_bind] at hrun
      obtain ⟨m', hm', hkeys⟩ := ih h₁ hrun
      refine ⟨m', hm', fun key => ?_⟩
      rw [hkeys, Entries.step, List.map_cons, List.mem_cons]
      by_cases hkey : key = e.1
      · simp [hkey]
      · simp [hkey]

/-- For every tree that `AVLAllocate` built and every key, `AVLUnregister` does not fail, and it
returns whether the key was present if and only if the node that it frees does not hold 0. -/
theorem avlUnregister_result_iff (entries : List (ℕ × ℕ)) (t : AvlHeader)
    (hbuilt : run step .nil (allocations entries) = .ok t) (key : ℕ) :
    ∃ t' removed, avlUnregisterAsserted t key = .ok (t', removed) ∧
      ((removed = true ↔ key ∈ entries.map Prod.fst) ↔ freedValue key t ≠ some 0) := by
  obtain ⟨m, hm, hkeys⟩ := represents_allocations represents_nil hbuilt
  obtain ⟨t', target, ht, -⟩ := avlUnregisterL_spec key hm.ordered hm.balanced
  refine ⟨t', target != 0, ?_, ?_⟩
  · rw [avlUnregisterAsserted_eq, avlUnregister, ht, Exec.ok_bind]
  · have hpresent : key ∈ entries.map Prod.fst ↔ (freedValue key t).isSome = true := by
      rw [freedValue_isSome_iff hm.ordered]
      have hkey := hkeys key
      simp only [ne_eq, not_true_eq_false, false_or] at hkey
      rw [← hkey]
      simp only [hm.has, ← ne_eq, Option.ne_none_iff_exists']
    rw [hpresent, avlUnregisterL_target hm.ordered ht]
    cases freedValue key t with
    | none => simp
    | some v => simp

/-- Keys 1 and 2 with values 7 and 5. -/
theorem unregister_nonzero_child :
    ∃ t, run step .nil (allocations [(1, 7), (2, 5)]) = .ok t ∧ freedValue 1 t = some 5 ∧
      ∃ t', avlUnregisterAsserted t 1 = .ok (t', true) := by
  obtain ⟨t, ht, hfreed⟩ : ∃ t, run step .nil (allocations [(1, 7), (2, 5)]) = .ok t ∧ freedValue 1 t = some 5 :=
    ⟨_, rfl, by decide⟩
  obtain ⟨t', removed, hrun, hiff⟩ := avlUnregister_result_iff [(1, 7), (2, 5)] t ht 1
  have hremoved : removed = true := (hiff.mpr (by rw [hfreed]; decide)).mpr (by decide)
  exact ⟨t, ht, hfreed, t', hremoved ▸ hrun⟩

/-- Key 1 holds 7 and its only child, key 2, holds 0: the removal of key 1 returns false. -/
theorem unregister_zero_child :
    ¬ ∀ (entries : List (ℕ × ℕ)) (t : AvlHeader), run step .nil (allocations entries) = .ok t → ∀ key t' removed,
      avlUnregisterAsserted t key = .ok (t', removed) → (removed = true ↔ key ∈ entries.map Prod.fst) := by
  intro h
  have := (h [(1, 7), (2, 0)] _ rfl 1 _ _ rfl).mpr (by decide)
  exact absurd this (by decide)

end DualFuse.Utility.AvlHeader
