import Mathlib.Tactic

/-! The machine words of the kernel: `size_t` and `uint64_t` values are natural
numbers below `2 ^ 64`, and an operation that may leave this range is reduced
explicitly. An `int` is an integer between `-2 ^ 31` and `2 ^ 31 - 1`. -/

namespace DualFuse.Utility

/-- Reduction of an unsigned result to 64 bits. -/
def wrap (n : ℕ) : ℕ := n % 2 ^ 64

theorem wrap_of_lt {n : ℕ} (h : n < 2 ^ 64) : wrap n = n := Nat.mod_eq_of_lt h

theorem wrap_lt (n : ℕ) : wrap n < 2 ^ 64 := Nat.mod_lt n (by norm_num)

theorem wrap_le (n : ℕ) : wrap n ≤ n := Nat.mod_le n _

/-- Two's-complement reduction of an `int` result to 32 bits. -/
def wrapInt (z : ℤ) : ℤ := z.bmod (2 ^ 32)

theorem wrapInt_natCast {n : ℕ} (h : n < 2 ^ 31) : wrapInt n = n := by
  unfold wrapInt
  rw [Int.bmod_def]
  omega

/-- Conversion of an `int` to `size_t`: the sign is extended. -/
def intToSize (z : ℤ) : ℕ := (z % 2 ^ 64).toNat

theorem intToSize_of_nonneg {n : ℕ} (h : n < 2 ^ 64) : intToSize n = n := by
  unfold intToSize
  omega

/-- `CEILING_DIVISION(a, b)`, that is `((a + b) - 1) / b` on 64-bit words. -/
def ceilingDivision (a b : ℕ) : ℕ := wrap (a + b + (2 ^ 64 - 1)) / b

theorem ceilingDivision_eq {a b : ℕ} (hb : 0 < b) (h : a + b ≤ 2 ^ 64) :
    ceilingDivision a b = (a + b - 1) / b := by
  unfold ceilingDivision wrap
  rw [show a + b + (2 ^ 64 - 1) = (a + b - 1) + 2 ^ 64 by omega, Nat.add_mod_right,
    Nat.mod_eq_of_lt (by omega)]

end DualFuse.Utility
