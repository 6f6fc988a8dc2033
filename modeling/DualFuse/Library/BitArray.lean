import Mathlib.Tactic

/-! Bits packed eight to a byte, least significant first. Reading and writing a
bit by masks is reading and writing one place of a Boolean sequence. -/

namespace DualFuse.Library.BitArray

/-- The byte with only bit `i` set. -/
def mask (i : ℕ) : BitVec 8 := 1#8 <<< i

/-- Byte `i / 8` masked by bit `i % 8`. -/
def get (bytes : ℕ → BitVec 8) (i : ℕ) : Bool := (bytes (i / 8) &&& mask (i % 8)) != 0#8

def set (bytes : ℕ → BitVec 8) (i : ℕ) (v : Bool) : ℕ → BitVec 8 :=
  Function.update bytes (i / 8)
    (if v then bytes (i / 8) ||| mask (i % 8) else bytes (i / 8) &&& ~~~mask (i % 8))

theorem mask_getLsbD {i k : ℕ} (hi : i < 8) : (mask i).getLsbD k = decide (k = i) := by
  rw [mask, BitVec.getLsbD_shiftLeft, BitVec.getLsbD_one]
  by_cases h : k = i
  · subst h; simp [hi]
  · simp only [h, decide_false, Bool.and_eq_false_iff, decide_eq_false_iff_not, Bool.not_eq_false']
    simp only [decide_eq_true_eq]
    omega

theorem and_mask_ne_zero {x : BitVec 8} {i : ℕ} (hi : i < 8) :
    ((x &&& mask i) != 0#8) = x.getLsbD i := by
  rw [Bool.eq_iff_iff, bne_iff_ne, ne_eq]
  constructor
  · intro h
    by_contra hx
    refine h (BitVec.eq_of_getLsbD_eq fun k _ => ?_)
    rw [BitVec.getLsbD_and, mask_getLsbD hi]
    by_cases hk : k = i
    · subst hk; simpa using hx
    · simp [hk]
  · intro h hz
    have hb := congrArg (fun y : BitVec 8 => y.getLsbD i) hz
    simp [mask_getLsbD hi, h] at hb

theorem get_eq (bytes : ℕ → BitVec 8) (i : ℕ) : get bytes i = (bytes (i / 8)).getLsbD (i % 8) :=
  and_mask_ne_zero (Nat.mod_lt i (by decide))

/-- Writing a bit changes that bit and no other. -/
@[simp] theorem get_set (bytes : ℕ → BitVec 8) (i j : ℕ) (v : Bool) :
    get (set bytes i v) j = if j = i then v else get bytes j := by
  have hi : i % 8 < 8 := Nat.mod_lt i (by decide)
  have hj : j % 8 < 8 := Nat.mod_lt j (by decide)
  rw [get_eq, get_eq, set]
  by_cases hbyte : j / 8 = i / 8
  · rw [hbyte, Function.update_self]
    have hiff : j = i ↔ j % 8 = i % 8 := by omega
    cases v
    · simp only [Bool.false_eq_true, if_false, BitVec.getLsbD_and, BitVec.getLsbD_not, mask_getLsbD hi, hj]
      by_cases h : j % 8 = i % 8 <;> simp [h, hiff]
    · simp only [if_true, BitVec.getLsbD_or, mask_getLsbD hi]
      by_cases h : j % 8 = i % 8 <;> simp [h, hiff]
  · rw [Function.update_of_ne hbyte, if_neg (fun h => hbyte (by rw [h]))]

/-- Stores with the same bits are the same. -/
theorem ext_get {bytes bytes' : ℕ → BitVec 8} (h : ∀ i, get bytes i = get bytes' i) : bytes = bytes' := by
  funext k
  refine BitVec.eq_of_getLsbD_eq fun j hj => ?_
  have hbit := h (8 * k + j)
  rw [get_eq, get_eq, show (8 * k + j) / 8 = k by omega, show (8 * k + j) % 8 = j by omega] at hbit
  exact hbit

/-- A bit that gets its old value back. -/
theorem set_set_of_get {bytes : ℕ → BitVec 8} {i : ℕ} {v : Bool} (h : get bytes i = v) (w : Bool) :
    set (set bytes i w) i v = bytes := by
  refine ext_get fun j => ?_
  rw [get_set, get_set]
  split_ifs with hj
  · rw [hj, h]
  · rfl

/-- A byte store of all ones. -/
theorem get_allOnes (bytes : ℕ → BitVec 8) (i : ℕ) (h : bytes (i / 8) = 0xff#8) : get bytes i = true := by
  have hi : i % 8 < 8 := Nat.mod_lt i (by decide)
  rw [get_eq, h]
  interval_cases i % 8 <;> rfl

end DualFuse.Library.BitArray
