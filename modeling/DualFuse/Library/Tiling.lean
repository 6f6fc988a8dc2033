import DualFuse.Library.Places

/-! Pieces that tile a range. Each piece covers a list of places, not more than belong to it.
Together they cover a range in order exactly when each covers its own part. -/

namespace DualFuse.Library.Tiling

open Places

variable {out : ℕ → List ℕ} {size : ℕ → ℕ}

theorem length_flatMap_range_le {n : ℕ} (h : ∀ i < n, (out i).length ≤ size i) :
    ((List.range n).flatMap out).length ≤ before size n := by
  induction n with
  | zero => rfl
  | succ n ih =>
    rw [List.range_succ, List.flatMap_append, List.length_append, List.flatMap_singleton, before_succ]
    exact Nat.add_le_add (ih fun i hi => h i (by omega)) (h n (by omega))

theorem flatMap_range_eq_iff (base : ℕ) {n : ℕ} (h : ∀ i < n, (out i).length ≤ size i) :
    (List.range n).flatMap out = List.range' base (before size n) ↔
      ∀ i < n, out i = List.range' (base + before size i) (size i) := by
  induction n with
  | zero => simp [before]
  | succ n ih =>
    have hpieces : ∀ i < n, (out i).length ≤ size i := fun i hi => h i (by omega)
    rw [List.range_succ, List.flatMap_append, List.flatMap_singleton, before_succ, Nat.forall_lt_succ_right,
      ← ih hpieces, ← List.range'_append_1]
    constructor
    · intro heq
      have hlength := congrArg List.length heq
      simp only [List.length_append, List.length_range'] at hlength
      have hle := length_flatMap_range_le hpieces
      have hlast := h n (by omega)
      exact List.append_inj heq (by rw [List.length_range']; omega)
    · rintro ⟨hn, hlast⟩
      rw [hn, hlast]

end DualFuse.Library.Tiling
