import DualFuse.Library.Execution

/-! Places in a row of blocks of different lengths. What lies before a block is the sum of
the lengths before it. Places come in the order of their blocks, and inside a block in the
order of their offsets. -/

namespace DualFuse.Library.Places

/-- The lengths of the first `n` blocks together. -/
def before (len : ℕ → ℕ) : ℕ → ℕ
  | 0 => 0
  | n + 1 => before len n + len n

variable {len len' : ℕ → ℕ} {a b n r s : ℕ}

@[simp] theorem before_zero (len : ℕ → ℕ) : before len 0 = 0 := rfl

theorem before_succ (len : ℕ → ℕ) (n : ℕ) : before len (n + 1) = before len n + len n := rfl

theorem before_congr (h : ∀ i < n, len i = len' i) : before len n = before len' n := by
  induction n with
  | zero => rfl
  | succ n ih => rw [before_succ, before_succ, ih fun i hi => h i (by omega), h n (by omega)]

theorem before_mono (len : ℕ → ℕ) (h : a ≤ b) : before len a ≤ before len b := by
  induction h with
  | refl => exact le_rfl
  | step _ ih => exact ih.trans (Nat.le_add_right _ _)

theorem before_add (len : ℕ → ℕ) (m n : ℕ) : before len (m + n) = before len m + before (fun i => len (m + i)) n := by
  induction n with
  | zero => rfl
  | succ n ih => rw [← Nat.add_assoc, before_succ, before_succ, ih, Nat.add_assoc]

theorem before_mul (len : ℕ → ℕ) (c n : ℕ) : before (fun i => len i * c) n = before len n * c := by
  induction n with
  | zero => rw [before_zero, before_zero, Nat.zero_mul]
  | succ n ih => rw [before_succ, before_succ, ih, Nat.add_mul]

theorem before_le {c : ℕ} (h : ∀ i < n, len i ≤ c) : before len n ≤ n * c := by
  induction n with
  | zero => exact Nat.zero_le _
  | succ n ih =>
    rw [before_succ, Nat.succ_mul]
    exact Nat.add_le_add (ih fun i hi => h i (by omega)) (h n (by omega))

/-- A place in a block lies before the next block. -/
theorem place_lt_before (hr : r < len a) (h : a < b) : before len a + r < before len b := by
  have hmono := before_mono len (Nat.succ_le_of_lt h)
  rw [Nat.succ_eq_add_one, before_succ] at hmono
  omega

/-- Places are in the order of their blocks and offsets. -/
theorem place_lt (hr : r < len a) (h : a < b ∨ a = b ∧ r < s) : before len a + r < before len b + s := by
  rcases h with hlt | ⟨rfl, hlt⟩
  · exact (place_lt_before hr hlt).trans_le (Nat.le_add_right _ _)
  · exact Nat.add_lt_add_left hlt _

/-- A loop that adds the lengths of the blocks. -/
theorem foldlM_range_add {f : ℕ → ℕ → Exec ℕ} (start : ℕ) (h : ∀ acc, ∀ i < n, f acc i = .ok (acc + len i)) :
    (List.range n).foldlM f start = .ok (start + before len n) := by
  induction n with
  | zero => rfl
  | succ n ih =>
    rw [List.range_succ, List.foldlM_append, ih fun acc i hi => h acc i (by omega), Exec.ok_bind, List.foldlM_cons,
      h _ n (by omega), before_succ, Nat.add_assoc]
    rfl

end DualFuse.Library.Places
