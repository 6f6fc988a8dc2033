import Mathlib.Tactic

/-! Streams that are worked off in blocks. A state takes in one block of `n` elements after the
other, and what is left behind the last whole block is pending. The state and what is pending
after a longer stream are found from those of a shorter one. -/

namespace DualFuse.Library.BlockStream

variable {α σ : Type*} (compress : σ → List α → σ) (n : ℕ)

/-- The first `k` blocks. -/
def rounds : ℕ → σ → List α → σ
  | 0, s, _ => s
  | k + 1, s, l => rounds k (compress s (l.take n)) (l.drop n)

/-- All whole blocks. -/
def absorb (s : σ) (l : List α) : σ := rounds compress n (l.length / n) s l

/-- What is left behind the whole blocks. -/
def pending (l : List α) : List α := l.drop (n * (l.length / n))

variable {compress n} {s : σ} {l m : List α}

theorem length_pending : (pending n l).length = l.length % n := by
  rw [pending, List.length_drop]
  exact Nat.sub_eq_of_eq_add (Nat.mod_add_div _ _).symm

theorem absorb_of_lt (h : l.length < n) : absorb compress n s l = s := by
  rw [absorb, Nat.div_eq_of_lt h, rounds]

theorem pending_of_lt (h : l.length < n) : pending n l = l := by
  rw [pending, Nat.div_eq_of_lt h, Nat.mul_zero, List.drop_zero]

/-- The blocks that a stream begins with. -/
theorem rounds_append {k : ℕ} (h : n * k ≤ l.length) : rounds compress n k s (l ++ m) = rounds compress n k s l := by
  induction k generalizing s l with
  | zero => rfl
  | succ k ih =>
    have hn : n ≤ l.length := le_trans (Nat.le_mul_of_pos_right n k.succ_pos) h
    rw [rounds, rounds, List.take_append_of_le_length hn, List.drop_append_of_le_length hn]
    apply ih
    rw [List.length_drop]
    exact Nat.le_sub_of_add_le h

theorem rounds_add {k j : ℕ} :
    rounds compress n (k + j) s l = rounds compress n j (rounds compress n k s l) (l.drop (n * k)) := by
  induction k generalizing s l with
  | zero => rw [Nat.zero_add, Nat.mul_zero, List.drop_zero, rounds]
  | succ k ih => rw [Nat.succ_add, rounds, rounds, ih, List.drop_drop, Nat.mul_succ, Nat.add_comm]

section Append

variable (hn : 0 < n)
include hn

/-- A stream goes on where the whole blocks of its first part end. -/
theorem absorb_append :
    absorb compress n s (l ++ m) = absorb compress n (absorb compress n s l) (pending n l ++ m) := by
  have hl : n * (l.length / n) ≤ l.length := Nat.mul_div_le _ _
  have hcount : (l ++ m).length / n = l.length / n + (pending n l ++ m).length / n := by
    rw [List.length_append, List.length_append, length_pending, ← Nat.mul_add_div hn, ← Nat.add_assoc,
      Nat.div_add_mod]
  rw [absorb, hcount, rounds_add, rounds_append hl, List.drop_append_of_le_length hl, ← pending, ← absorb, ← absorb]

theorem pending_append : pending n (l ++ m) = pending n (pending n l ++ m) := by
  have hl : n * (l.length / n) ≤ l.length := Nat.mul_div_le _ _
  have hcount : n * ((l ++ m).length / n) = n * (l.length / n) + n * ((pending n l ++ m).length / n) := by
    rw [← Nat.mul_add, List.length_append, List.length_append, length_pending, ← Nat.mul_add_div hn, ← Nat.add_assoc,
      Nat.div_add_mod]
  rw [pending, hcount, ← List.drop_drop, List.drop_append_of_le_length hl, ← pending, ← pending]

/-- The first block is whole. -/
theorem absorb_block {b : List α} (hb : b.length = n) :
    absorb compress n s (b ++ l) = absorb compress n (compress s b) l := by
  have h : absorb compress n s b = compress s b := by
    rw [absorb, hb, Nat.div_self hn, rounds, rounds, ← hb, List.take_length]
  have hp : pending n b = [] := by
    rw [← List.length_eq_zero_iff, length_pending, hb, Nat.mod_self]
  rw [absorb_append hn, h, hp, List.nil_append]

theorem pending_block {b : List α} (hb : b.length = n) : pending n (b ++ l) = pending n l := by
  have hp : pending n b = [] := by
    rw [← List.length_eq_zero_iff, length_pending, hb, Nat.mod_self]
  rw [pending_append hn, hp, List.nil_append]

end Append

end DualFuse.Library.BlockStream
