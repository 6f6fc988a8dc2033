import Mathlib.Tactic

/-! Lists of pairs that list a finite map: no key stands twice, and the pairs are those of
the map. A pair may stand at any place, so an insertion and a removal are at any place too. -/

namespace DualFuse.Library

variable {α β : Type*}

/-- The pairs of a list are those of the map. -/
structure Listing (l : List (α × β)) (m : α → Option β) : Prop where
  nodup : (l.map Prod.fst).Nodup
  mem_iff : ∀ k v, m k = some v ↔ (k, v) ∈ l

namespace Listing

variable {l l₁ l₂ : List (α × β)} {m : α → Option β} {k : α} {v : β}

theorem eq_none_iff (h : Listing l m) : m k = none ↔ k ∉ l.map Prod.fst := by
  rw [Option.eq_none_iff_forall_ne_some, List.mem_map]
  constructor
  · rintro hk ⟨⟨_, v⟩, hv, rfl⟩
    exact hk v ((h.mem_iff _ v).mpr hv)
  · intro hk v hv
    exact hk ⟨(k, v), (h.mem_iff k v).mp hv, rfl⟩

theorem nil : Listing ([] : List (α × β)) fun _ => none where
  nodup := List.nodup_nil
  mem_iff _ _ := by simp

/-- Two lists of the same map have the same pairs. -/
theorem perm {l' : List (α × β)} (h : Listing l m) (h' : Listing l' m) : l.Perm l' := by
  refine (List.perm_ext_iff_of_nodup h.nodup.of_map h'.nodup.of_map).mpr fun x => ?_
  rw [← h.mem_iff, ← h'.mem_iff]

variable [DecidableEq α]

theorem insert (h : Listing (l₁ ++ l₂) m) (hk : m k = none) :
    Listing (l₁ ++ (k, v) :: l₂) (Function.update m k (some v)) where
  nodup := by
    rw [List.map_append, List.map_cons, List.nodup_middle, ← List.map_append]
    exact List.nodup_cons.mpr ⟨h.eq_none_iff.mp hk, h.nodup⟩
  mem_iff k' v' := by
    have hmem : (k', v') ∈ l₁ ++ (k, v) :: l₂ ↔ (k', v') = (k, v) ∨ m k' = some v' := by
      rw [h.mem_iff, List.mem_append, List.mem_append, List.mem_cons]
      tauto
    rw [hmem, Prod.mk.injEq]
    by_cases hkey : k' = k
    · subst hkey
      rw [Function.update_self, hk, Option.some.injEq]
      simp only [true_and, reduceCtorEq, or_false]
      exact eq_comm
    · rw [Function.update_of_ne hkey]
      simp only [hkey, false_and, false_or]

/-- Distinct keys list a map. -/
theorem exists_of_nodup (h : (l.map Prod.fst).Nodup) : ∃ m, Listing l m := by
  induction l with
  | nil => exact ⟨_, Listing.nil⟩
  | cons x l ih =>
    rw [List.map_cons, List.nodup_cons] at h
    obtain ⟨m, hm⟩ := ih h.2
    have hstart : Listing ([] ++ l) m := hm
    exact ⟨_, hstart.insert (hm.eq_none_iff.mpr h.1)⟩

theorem erase (h : Listing (l₁ ++ (k, v) :: l₂) m) : Listing (l₁ ++ l₂) (Function.update m k none) := by
  have hnodup := h.nodup
  rw [List.map_append, List.map_cons, List.nodup_middle, ← List.map_append, List.nodup_cons] at hnodup
  refine ⟨hnodup.2, fun k' v' => ?_⟩
  by_cases hkey : k' = k
  · subst hkey
    rw [Function.update_self]
    refine iff_of_false (by simp) fun hmem => hnodup.1 (List.mem_map.mpr ⟨_, hmem, rfl⟩)
  · rw [Function.update_of_ne hkey, h.mem_iff, List.mem_append, List.mem_append, List.mem_cons, Prod.mk.injEq]
    simp only [hkey, false_and, false_or]

end Listing

end DualFuse.Library
