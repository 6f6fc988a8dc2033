import Mathlib.Tactic.Ring
import Mathlib.Tactic.Linarith
import Mathlib.Algebra.Order.Ring.Int

/-! Lines and circles on a grid. A line from `(0, 0)` to `(n, m)` that climbs at most as fast as it goes along has
at every `k` the height `k * m / n`, and the grid has a nearest height there, the lower one where two are as near. A
circle crosses in every row a last place that begins inside it. -/

namespace DualFuse.Library.Raster

section Lines
variable {n m k h : ℤ}

/-- The height is the nearest one: `2 * n` times how far it is above the line lies from `-n` to below `n`. -/
def Nearest (n m k h : ℤ) : Prop := -n ≤ 2 * (h * n - k * m) ∧ 2 * (h * n - k * m) < n

/-- The nearest height. -/
def rise (n m k : ℤ) : ℤ := (2 * k * m + n - 1) / (2 * n)

theorem nearest_rise (hn : 0 < n) (m k : ℤ) : Nearest n m k (rise n m k) := by
  have hpos : 0 < 2 * n := by omega
  have hlow : rise n m k * (2 * n) ≤ 2 * k * m + n - 1 := Int.ediv_mul_le _ hpos.ne'
  have hhigh : 2 * k * m + n - 1 < (rise n m k + 1) * (2 * n) := Int.lt_ediv_add_one_mul_self _ hpos
  constructor <;> linarith

theorem Nearest.eq {h' : ℤ} (hh : Nearest n m k h) (hh' : Nearest n m k h') : h = h' := by
  obtain ⟨hlow, hhigh⟩ := hh
  obtain ⟨hlow', hhigh'⟩ := hh'
  by_contra hne
  rcases lt_or_gt_of_ne hne with hlt | hlt
  · nlinarith
  · nlinarith

theorem Nearest.rise_eq (hh : Nearest n m k h) : rise n m k = h := by
  have hn : 0 < n := by
    obtain ⟨hlow, hhigh⟩ := hh
    omega
  exact (nearest_rise hn m k).eq hh

theorem rise_zero (hn : 0 ≤ n) (m : ℤ) : rise n m 0 = 0 := by
  rcases hn.eq_or_lt with rfl | hpos
  · simp [rise]
  · exact Nearest.rise_eq (by constructor <;> omega)

/-- The line ends where it should. -/
theorem rise_self (hm : 0 ≤ m) (hmn : m ≤ n) : rise n m n = m := by
  rcases (hm.trans hmn).eq_or_lt with rfl | hpos
  · simp [rise, le_antisymm hmn hm]
  · exact Nearest.rise_eq (by constructor <;> linarith)

theorem rise_diagonal (hn : 0 < n) (k : ℤ) : rise n n k = k :=
  Nearest.rise_eq (by constructor <;> omega)

theorem rise_nonneg (hn : 0 < n) (hm : 0 ≤ m) (hk : 0 ≤ k) : 0 ≤ rise n m k := by
  obtain ⟨hlow, -⟩ := nearest_rise hn m k
  have hkm : 0 ≤ k * m := mul_nonneg hk hm
  by_contra hneg
  nlinarith

theorem rise_le (hn : 0 < n) (hm : 0 ≤ m) (hk : k ≤ n) : rise n m k ≤ m := by
  obtain ⟨-, hhigh⟩ := nearest_rise hn m k
  have hkm : k * m ≤ n * m := mul_le_mul_of_nonneg_right hk hm
  by_contra hgt
  nlinarith

/-- The next height is one more exactly where the middle above this height is below the line. -/
theorem rise_succ (hn : 0 < n) (hm : 0 ≤ m) (hmn : m ≤ n) (k : ℤ) :
    rise n m (k + 1) =
      if 2 * (rise n m k * n - k * m) < 2 * m - n then rise n m k + 1 else rise n m k := by
  obtain ⟨hlow, hhigh⟩ := nearest_rise hn m k
  apply Nearest.rise_eq
  split_ifs with hup
  · constructor <;> linarith
  · constructor <;> linarith

/-- From one place to the next the line rises by nothing or by one. -/
theorem rise_succ_sub (hn : 0 < n) (hm : 0 ≤ m) (hmn : m ≤ n) (k : ℤ) :
    rise n m (k + 1) - rise n m k = 0 ∨ rise n m (k + 1) - rise n m k = 1 := by
  rw [rise_succ hn hm hmn]
  split_ifs <;> omega

/-- A line is never further than half a place away. -/
theorem abs_rise_sub_le (hm : 0 ≤ m) (hmn : m ≤ n) (k : ℤ) : 2 * |k * m - rise n m k * n| ≤ n := by
  rcases (hm.trans hmn).eq_or_lt with rfl | hpos
  · simp [le_antisymm hmn hm]
  · obtain ⟨hlow, hhigh⟩ := nearest_rise hpos m k
    rcases abs_cases (k * m - rise n m k * n) with ⟨habs, -⟩ | ⟨habs, -⟩ <;> linarith

end Lines

/-! ### Circles -/

/-- The place `(x, y)` of the first octant is on the circle: the place to the right of it is outside, counted from
the row above it. -/
structure OnArc (r x y : ℤ) : Prop where
  nonneg : 0 ≤ y
  octant : y ≤ x
  inside : x * x + (y + 1) * (y + 1) ≤ r * r + 1
  outside : r * r + 1 < (x + 1) * (x + 1) + (y + 1) * (y + 1)

/-- The places of an arc, row by row: one to the left where the row is outside the circle otherwise. -/
def arc (r : ℤ) : ℕ → ℤ
  | 0 => r
  | k + 1 => if arc r k * arc r k + (k + 1) * (k + 1) + 2 * (k + 1) - r * r > 0 then arc r k - 1 else arc r k

/-- The arc is in the octant up to this row. -/
def InOctant (r : ℤ) (k : ℕ) : Prop := ∀ j ≤ k, (j : ℤ) ≤ arc r j

section Circles
variable {r x x' y : ℤ} {k n : ℕ}

theorem OnArc.eq (h : OnArc r x y) (h' : OnArc r x' y) : x = x' := by
  have hx := h.nonneg.trans h.octant
  have hx' := h'.nonneg.trans h'.octant
  have hin := h.inside
  have hin' := h'.inside
  have hout := h.outside
  have hout' := h'.outside
  by_contra hne
  rcases lt_or_gt_of_ne hne with hlt | hlt
  · nlinarith
  · nlinarith

/-- A pixel of the circle is crossed by it: its nearer corner is not outside, its farther corner is. -/
theorem OnArc.crossed (h : OnArc r x y) : x * x + y * y ≤ r * r ∧ r * r < (x + 1) * (x + 1) + (y + 1) * (y + 1) := by
  have hy := h.nonneg
  have hin := h.inside
  have hout := h.outside
  constructor <;> nlinarith

theorem arc_le (r : ℤ) (k : ℕ) : arc r k ≤ r := by
  induction k with
  | zero => exact le_rfl
  | succ k ih =>
    rw [arc]
    split_ifs <;> omega

theorem onArc_arc (hr : 0 ≤ r) (h : InOctant r k) : OnArc r (arc r k) k := by
  induction k with
  | zero => exact ⟨le_rfl, hr, by simp [arc], by simp [arc]; nlinarith⟩
  | succ k ih =>
    have hbefore := ih fun j hj => h j (by omega)
    have hoctant := h (k + 1) le_rfl
    have hin := hbefore.inside
    have hout := hbefore.outside
    have hk := hbefore.octant
    refine ⟨by omega, hoctant, ?_, ?_⟩
    all_goals
      rw [arc] at hoctant ⊢
      push_cast at hoctant ⊢
      split_ifs at hoctant ⊢ with hleft
      all_goals nlinarith

/-- The arc leaves the octant where the octant leaves the circle. -/
theorem outside_of_arc_lt (hr : 0 ≤ r) (hbefore : InOctant r k) (hlt : arc r (k + 1) < k + 1) :
    r * r + 1 < ((k : ℤ) + 1) * (k + 1) + (k + 2) * (k + 2) := by
  have harc := onArc_arc hr hbefore
  have hout := harc.outside
  have hk := harc.octant
  rw [arc] at hlt
  split_ifs at hlt with hleft
  · nlinarith
  · nlinarith

end Circles

end DualFuse.Library.Raster
