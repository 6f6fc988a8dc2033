import Mathlib.Data.Nat.Digits.Lemmas
import Mathlib.Data.List.TakeWhile
import DualFuse.Library.CString

/-! Decimal numerals as strings of bytes. Reading a numeral goes from its first digit on and stops
behind the last one; writing one puts the digits of the number behind each other, the last one
first, and turns them around. -/

namespace DualFuse.Library.Decimal

def digitChar (d : ℕ) : BitVec 8 := BitVec.ofNat 8 (48 + d)

def isDigit (c : BitVec 8) : Bool := 48 ≤ c.toNat && c.toNat ≤ 57

def digitValue (c : BitVec 8) : ℕ := c.toNat - 48

/-- The numeral of a number, without leading zeros. -/
def numeral (n : ℕ) : List (BitVec 8) := if n = 0 then [digitChar 0] else (Nat.digits 10 n).reverse.map digitChar

/-- The number that digits make when they follow those of `r`. -/
def valueFrom (r : ℕ) (s : List (BitVec 8)) : ℕ := s.foldl (fun r c => 10 * r + digitValue c) r

/-- The number at the start of a string. -/
def value (s : List (BitVec 8)) : ℕ := valueFrom 0 (s.takeWhile isDigit)

section Digits
variable {d : ℕ}

theorem toNat_digitChar (hd : d < 10) : (digitChar d).toNat = 48 + d := by
  rw [digitChar, BitVec.toNat_ofNat]
  omega

theorem isDigit_digitChar (hd : d < 10) : isDigit (digitChar d) = true := by
  rw [isDigit, toNat_digitChar hd, Bool.and_eq_true, decide_eq_true_eq, decide_eq_true_eq]
  omega

theorem digitValue_digitChar (hd : d < 10) : digitValue (digitChar d) = d := by
  rw [digitValue, toNat_digitChar hd]
  omega

theorem digitValue_lt {c : BitVec 8} (h : isDigit c = true) : digitValue c < 10 := by
  rw [isDigit, Bool.and_eq_true, decide_eq_true_eq, decide_eq_true_eq] at h
  unfold digitValue
  omega

theorem digitChar_digitValue {c : BitVec 8} (h : isDigit c = true) : digitChar (digitValue c) = c := by
  have hlt := digitValue_lt h
  apply BitVec.eq_of_toNat_eq
  rw [toNat_digitChar hlt]
  rw [isDigit, Bool.and_eq_true, decide_eq_true_eq] at h
  unfold digitValue
  omega

theorem ne_zero_of_isDigit {c : BitVec 8} (h : isDigit c = true) : c ≠ 0 := by
  rintro rfl
  cases h

end Digits

section Numerals
variable {n d k : ℕ}

theorem numeral_of_lt (hd : d < 10) : numeral d = [digitChar d] := by
  unfold numeral
  split_ifs with hzero
  · rw [hzero]
  · rw [Nat.digits_of_lt 10 d hzero hd]
    rfl

theorem numeral_snoc (hn : 0 < n) (hd : d < 10) : numeral (10 * n + d) = numeral n ++ [digitChar d] := by
  have hdigits : Nat.digits 10 (10 * n + d) = d :: Nat.digits 10 n := by
    rw [Nat.add_comm]
    exact Nat.digits_add 10 (by omega) d n hd (Or.inr hn.ne')
  rw [numeral, numeral, if_neg (by omega), if_neg hn.ne', hdigits]
  simp

/-- A number has one digit, or it is a number with one digit behind it. -/
theorem digit_induction {P : ℕ → Prop} (digit : ∀ d < 10, P d) (snoc : ∀ n d, 0 < n → d < 10 → P n → P (10 * n + d))
    (n : ℕ) : P n := by
  induction n using Nat.strong_induction_on with
  | _ n ih =>
    by_cases hn : n < 10
    · exact digit n hn
    · rw [← Nat.div_add_mod n 10]
      exact snoc _ _ (by omega) (Nat.mod_lt n (by omega)) (ih _ (by omega))

theorem numeral_digits (n : ℕ) : ∀ c ∈ numeral n, isDigit c = true := by
  induction n using digit_induction with
  | digit d hd =>
    rw [numeral_of_lt hd]
    intro c hc
    rw [List.mem_singleton.mp hc]
    exact isDigit_digitChar hd
  | snoc n d hn hd ih =>
    rw [numeral_snoc hn hd]
    intro c hc
    rcases List.mem_append.mp hc with hc | hc
    · exact ih c hc
    · rw [List.mem_singleton.mp hc]
      exact isDigit_digitChar hd

theorem zero_not_mem_numeral (n : ℕ) : (0 : BitVec 8) ∉ numeral n :=
  fun hmem => ne_zero_of_isDigit (numeral_digits n 0 hmem) rfl

theorem valueFrom_append (r : ℕ) (s t : List (BitVec 8)) : valueFrom r (s ++ t) = valueFrom (valueFrom r s) t :=
  List.foldl_append

theorem value_numeral (n : ℕ) : value (numeral n) = n := by
  rw [value, List.takeWhile_eq_self_iff.mpr (numeral_digits n)]
  induction n using digit_induction with
  | digit d hd =>
    rw [numeral_of_lt hd]
    exact (Nat.zero_add _).trans (digitValue_digitChar hd)
  | snoc n d hn hd ih =>
    rw [numeral_snoc hn hd, valueFrom_append, ih]
    exact congrArg (10 * n + ·) (digitValue_digitChar hd)

theorem le_valueFrom (r : ℕ) (s : List (BitVec 8)) : r ≤ valueFrom r s := by
  induction s generalizing r with
  | nil => exact le_rfl
  | cons c s ih => exact (by omega : r ≤ 10 * r + digitValue c).trans (ih _)

theorem length_numeral_le_iff (hk : 0 < k) : (numeral n).length ≤ k ↔ n < 10 ^ k := by
  unfold numeral
  split_ifs with hzero
  · have hpow : 0 < 10 ^ k := Nat.pow_pos (by omega)
    rw [hzero]
    exact iff_of_true hk hpow
  · rw [List.length_map, List.length_reverse]
    exact Nat.digits_length_le_iff (by omega) n

theorem numeral_eq_zero_iff : numeral n = [digitChar 0] ↔ n = 0 := by
  constructor
  · intro h
    have hvalue := congrArg value h
    rwa [value_numeral, ← numeral_of_lt (by decide : 0 < 10), value_numeral] at hvalue
  · rintro rfl
    rfl

end Numerals

end DualFuse.Library.Decimal
