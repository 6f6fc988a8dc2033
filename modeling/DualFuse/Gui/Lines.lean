import DualFuse.Gui.Primitives
import DualFuse.Library.Loop
import DualFuse.Library.Raster

/-! Lines (`draw_line` of `GUI/gui_primitives.cpp`). The loop keeps in `err` how far the next pixel is from the
line. -/

namespace DualFuse.Gui

open Library Library.Painting Library.Raster Library.Loop Utility.Numbers

def abs (x : ℤ) : Exec ℤ := if x < 0 then int (-x) else .ok x

structure LineState where
  x : ℤ
  y : ℤ
  err : ℤ
  calls : List Stroke

/-- `if (taken) { err += change; p += step; }`. -/
def advance (taken : Prop) [Decidable taken] (err change p step : ℤ) : Exec (ℤ × ℤ) :=
  if taken then do .ok (← int (err + change), ← int (p + step)) else .ok (err, p)

/-- One round of `while (true)`. -/
def lineRound (x1 y1 dx dy sx sy : ℤ) (color : BitVec 32) (s : LineState) : Exec (Round LineState (List Stroke)) :=
  let calls := s.calls ++ [((s.x, s.y), color)]
  if s.x = x1 ∧ s.y = y1 then .ok (.done calls)
  else do
    let e2 ← int (2 * s.err)
    let (err, x) ← advance (e2 > -dy) s.err (-dy) s.x sx
    let (err, y) ← advance (e2 < dx) err dx s.y sy
    .ok (.next ⟨x, y, err, calls⟩)

def drawLine (fuel : ℕ) (x0 y0 x1 y1 : ℤ) (color : BitVec 32) : Drawing := do
  let dx ← abs (← int (x1 - x0))
  let dy ← abs (← int (y1 - y0))
  let sx := if x0 < x1 then 1 else -1
  let sy := if y0 < y1 then 1 else -1
  let err ← int (dx - dy)
  Loop.run (lineRound x1 y1 dx dy sx sy color) fuel ⟨x0, y0, err, []⟩

/-- The `k`-th pixel of a line: the nearest one to the line where it goes along its longer side. -/
def linePixel (x0 y0 x1 y1 k : ℤ) : ℤ × ℤ :=
  let dx := |x1 - x0|
  let dy := |y1 - y0|
  let sx := if x0 < x1 then 1 else -1
  let sy := if y0 < y1 then 1 else -1
  if dy ≤ dx then (x0 + sx * k, y0 + sy * rise dx dy k) else (x0 + sx * rise dy dx k, y0 + sy * k)

section Lines
variable {x y dx dy sx sy k : ℤ} {color : BitVec 32} {calls : List Stroke}

theorem abs_eq {x : ℤ} (hx : -2147483648 < x ∧ x < 2147483648) : abs x = .ok |x| := by
  unfold abs
  split_ifs with hneg
  · rw [int_of_inInt ⟨by omega, by omega⟩, abs_of_neg hneg]
  · rw [abs_of_nonneg (by omega)]

theorem advance_of_taken {taken : Prop} [Decidable taken] (htaken : taken) {err change p step : ℤ}
    (herr : InInt (err + change)) (hp : InInt (p + step)) :
    advance taken err change p step = .ok (err + change, p + step) := by
  rw [advance, if_pos htaken, int_of_inInt herr, Exec.ok_bind, int_of_inInt hp, Exec.ok_bind]

theorem advance_of_not {taken : Prop} [Decidable taken] (htaken : ¬taken) (err change p step : ℤ) :
    advance taken err change p step = .ok (err, p) := if_neg htaken

/-- The places between the ends of a side. -/
theorem inInt_side {s n i : ℤ} (hs : s = 1 ∨ s = -1) (hx : InInt x) (hend : InInt (x + s * n)) (hi : 0 ≤ i ∧ i ≤ n) :
    InInt (x + s * i) := by
  obtain ⟨hlow, hhigh⟩ := hx
  obtain ⟨hlow', hhigh'⟩ := hend
  rcases hs with rfl | rfl <;> exact ⟨by omega, by omega⟩

/-- A line that goes at least as far across as up or down. -/
theorem lineRound_across (hsx : sx = 1 ∨ sx = -1) (hsy : sy = 1 ∨ sy = -1) (hx : InInt x) (hy : InInt y)
    (hx' : InInt (x + sx * dx)) (hy' : InInt (y + sy * dy)) (hdx : dx ≤ 2 ^ 29) (hdy : 0 ≤ dy ∧ dy ≤ dx)
    (hk : 0 ≤ k ∧ k < dx) :
    lineRound (x + sx * dx) (y + sy * dy) dx dy sx sy color
        ⟨x + sx * k, y + sy * rise dx dy k, rise dx dy k * dx - k * dy + dx - dy, calls⟩ =
      .ok (.next ⟨x + sx * (k + 1), y + sy * rise dx dy (k + 1),
        rise dx dy (k + 1) * dx - (k + 1) * dy + dx - dy,
        calls ++ [((x + sx * k, y + sy * rise dx dy k), color)]⟩) := by
  have hn : 0 < dx := by omega
  obtain ⟨hlow, hhigh⟩ := nearest_rise hn dy k
  obtain ⟨d, hd⟩ : ∃ d, d = rise dx dy k * dx - k * dy := ⟨_, rfl⟩
  have hsucc := rise_succ hn hdy.1 hdy.2 k
  have hright : 2 * (d + dx - dy) > -dy := by
    rcases hdy.2.lt_or_eq with hlt | heq
    · omega
    · rw [hd, heq, rise_diagonal hn]
      omega
  have hxnext := inInt_side hsx hx hx' (show 0 ≤ k + 1 ∧ k + 1 ≤ dx by omega)
  have hynext := inInt_side hsy hy hy' ⟨rise_nonneg hn hdy.1 (by omega : 0 ≤ k + 1), rise_le hn hdy.1 hk.2⟩
  have hend : ¬(x + sx * k = x + sx * dx ∧ y + sy * rise dx dy k = y + sy * dy) := by
    rcases hsx with rfl | rfl <;> omega
  rw [← hd] at hlow hhigh hsucc ⊢
  have hacross : advance (2 * (d + dx - dy) > -dy) (d + dx - dy) (-dy) (x + sx * k) sx =
      .ok (d + dx - dy + -dy, x + sx * (k + 1)) := by
    rw [mul_add, mul_one, ← add_assoc] at hxnext ⊢
    exact advance_of_taken hright ⟨by omega, by omega⟩ hxnext
  unfold lineRound
  dsimp only
  rw [if_neg hend, int_of_inInt ⟨by omega, by omega⟩, Exec.ok_bind, hacross, Exec.ok_bind]
  dsimp only
  by_cases hup : 2 * d < 2 * dy - dx
  · rw [if_pos hup] at hsucc
    have herr : d + dx - dy + -dy + dx = (rise dx dy k + 1) * dx - (k + 1) * dy + dx - dy := by
      rw [hd]
      ring
    rw [hsucc, mul_add, mul_one, ← add_assoc] at hynext
    rw [advance_of_taken (by omega) ⟨by omega, by omega⟩ hynext, Exec.ok_bind, hsucc, ← herr, mul_add sy, mul_one,
      ← add_assoc]
  · rw [if_neg hup] at hsucc
    have herr : d + dx - dy + -dy = rise dx dy k * dx - (k + 1) * dy + dx - dy := by
      rw [hd]
      ring
    rw [advance_of_not (by omega), Exec.ok_bind, hsucc, ← herr]

/-- A line that goes further up or down than across. -/
theorem lineRound_up (hsx : sx = 1 ∨ sx = -1) (hsy : sy = 1 ∨ sy = -1) (hx : InInt x) (hy : InInt y)
    (hx' : InInt (x + sx * dx)) (hy' : InInt (y + sy * dy)) (hdy : dy ≤ 2 ^ 29) (hdx : 0 ≤ dx ∧ dx < dy)
    (hk : 0 ≤ k ∧ k < dy) :
    lineRound (x + sx * dx) (y + sy * dy) dx dy sx sy color
        ⟨x + sx * rise dy dx k, y + sy * k, k * dx - rise dy dx k * dy + dx - dy, calls⟩ =
      .ok (.next ⟨x + sx * rise dy dx (k + 1), y + sy * (k + 1),
        (k + 1) * dx - rise dy dx (k + 1) * dy + dx - dy,
        calls ++ [((x + sx * rise dy dx k, y + sy * k), color)]⟩) := by
  have hn : 0 < dy := by omega
  obtain ⟨hlow, hhigh⟩ := nearest_rise hn dx k
  obtain ⟨d, hd⟩ : ∃ d, d = rise dy dx k * dy - k * dx := ⟨_, rfl⟩
  have hneg : k * dx - rise dy dx k * dy = -d := by
    rw [hd, neg_sub]
  have hsucc := rise_succ hn hdx.1 hdx.2.le k
  have hxnext := inInt_side hsx hx hx' ⟨rise_nonneg hn hdx.1 (by omega : 0 ≤ k + 1), rise_le hn hdx.1 hk.2⟩
  have hynext := inInt_side hsy hy hy' (show 0 ≤ k + 1 ∧ k + 1 ≤ dy by omega)
  have hend : ¬(x + sx * rise dy dx k = x + sx * dx ∧ y + sy * k = y + sy * dy) := by
    rcases hsy with rfl | rfl <;> omega
  rw [← hd] at hlow hhigh hsucc
  rw [hneg]
  have hup : ∀ err, -2 ^ 31 ≤ err + dx → err + dx < 2 ^ 31 →
      advance (2 * (-d + dx - dy) < dx) err dx (y + sy * k) sy = .ok (err + dx, y + sy * (k + 1)) := by
    intro err hlow' hhigh'
    rw [mul_add, mul_one, ← add_assoc] at hynext ⊢
    exact advance_of_taken (by omega) ⟨by omega, by omega⟩ hynext
  unfold lineRound
  dsimp only
  rw [if_neg hend, int_of_inInt ⟨by omega, by omega⟩, Exec.ok_bind]
  by_cases hright : 2 * d < 2 * dx - dy
  · rw [if_pos hright] at hsucc
    have herr : -d + dx - dy + -dy + dx = (k + 1) * dx - (rise dy dx k + 1) * dy + dx - dy := by
      rw [hd]
      ring
    rw [hsucc, mul_add, mul_one, ← add_assoc] at hxnext
    rw [advance_of_taken (by omega) ⟨by omega, by omega⟩ hxnext, Exec.ok_bind]
    dsimp only
    rw [hup _ (by omega) (by omega), Exec.ok_bind, hsucc, ← herr, mul_add sx, mul_one, ← add_assoc]
  · rw [if_neg hright] at hsucc
    have herr : -d + dx - dy + dx = (k + 1) * dx - rise dy dx k * dy + dx - dy := by
      rw [hd]
      ring
    rw [advance_of_not (by omega), Exec.ok_bind]
    dsimp only
    rw [hup _ (by omega) (by omega), Exec.ok_bind, hsucc, ← herr]

/-- The number of steps of a line. -/
def lineSteps (x0 y0 x1 y1 : ℤ) : ℕ := (max |x1 - x0| |y1 - y0|).toNat

def lineCalls (x0 y0 x1 y1 : ℤ) (color : BitVec 32) (n : ℕ) : List Stroke :=
  (List.range n).map fun k : ℕ => (linePixel x0 y0 x1 y1 k, color)

theorem lineCalls_succ (x0 y0 x1 y1 : ℤ) (color : BitVec 32) (n : ℕ) :
    lineCalls x0 y0 x1 y1 color (n + 1) = lineCalls x0 y0 x1 y1 color n ++ [(linePixel x0 y0 x1 y1 n, color)] := by
  simp [lineCalls, List.range_succ]

/-- The way from one end to the other. -/
theorem side_eq (a b : ℤ) : a + (if a < b then 1 else -1) * |b - a| = b := by
  split_ifs with hlt
  · rw [abs_of_nonneg (by omega)]
    omega
  · rw [abs_of_nonpos (by omega)]
    omega

/-- The first pixel is the one end, the last pixel the other. -/
theorem linePixel_zero (x0 y0 x1 y1 : ℤ) : linePixel x0 y0 x1 y1 0 = (x0, y0) := by
  simp [linePixel, rise_zero, abs_nonneg]

theorem linePixel_last (x0 y0 x1 y1 : ℤ) : linePixel x0 y0 x1 y1 (lineSteps x0 y0 x1 y1) = (x1, y1) := by
  have hsteps : (lineSteps x0 y0 x1 y1 : ℤ) = max |x1 - x0| |y1 - y0| :=
    Int.toNat_of_nonneg (le_max_of_le_left (abs_nonneg _))
  simp only [linePixel, hsteps]
  by_cases hle : |y1 - y0| ≤ |x1 - x0|
  · rw [if_pos hle, max_eq_left hle, rise_self (abs_nonneg _) hle, side_eq, side_eq]
  · have hge := (not_le.mp hle).le
    rw [if_neg hle, max_eq_right hge, rise_self (abs_nonneg _) hge, side_eq, side_eq]

/-- The state of the loop after `k` rounds. -/
def lineState (x0 y0 x1 y1 : ℤ) (color : BitVec 32) (k : ℕ) : LineState where
  x := (linePixel x0 y0 x1 y1 k).1
  y := (linePixel x0 y0 x1 y1 k).2
  err :=
    let dx := |x1 - x0|
    let dy := |y1 - y0|
    if dy ≤ dx then rise dx dy k * dx - k * dy + dx - dy else k * dx - rise dy dx k * dy + dx - dy
  calls := lineCalls x0 y0 x1 y1 color k

theorem drawLine_eq {x0 y0 x1 y1 : ℤ} (hx0 : InInt x0) (hy0 : InInt y0) (hx1 : InInt x1) (hy1 : InInt y1)
    (hdx : |x1 - x0| ≤ 2 ^ 29) (hdy : |y1 - y0| ≤ 2 ^ 29) {fuel : ℕ} (hfuel : lineSteps x0 y0 x1 y1 < fuel) :
    drawLine fuel x0 y0 x1 y1 color = .ok (some (lineCalls x0 y0 x1 y1 color (lineSteps x0 y0 x1 y1 + 1))) := by
  obtain ⟨dx, hdxEq⟩ : ∃ dx, dx = |x1 - x0| := ⟨_, rfl⟩
  obtain ⟨dy, hdyEq⟩ : ∃ dy, dy = |y1 - y0| := ⟨_, rfl⟩
  obtain ⟨sx, hsxEq⟩ : ∃ sx : ℤ, sx = if x0 < x1 then 1 else -1 := ⟨_, rfl⟩
  obtain ⟨sy, hsyEq⟩ : ∃ sy : ℤ, sy = if y0 < y1 then 1 else -1 := ⟨_, rfl⟩
  have hx : x0 + sx * dx = x1 := by rw [hsxEq, hdxEq, side_eq]
  have hy : y0 + sy * dy = y1 := by rw [hsyEq, hdyEq, side_eq]
  have hsx : sx = 1 ∨ sx = -1 := by
    rw [hsxEq]
    split_ifs <;> simp
  have hsy : sy = 1 ∨ sy = -1 := by
    rw [hsyEq]
    split_ifs <;> simp
  have hdxpos : 0 ≤ dx := hdxEq ▸ abs_nonneg _
  have hdypos : 0 ≤ dy := hdyEq ▸ abs_nonneg _
  have hsteps : (lineSteps x0 y0 x1 y1 : ℤ) = max dx dy := by
    rw [lineSteps, ← hdxEq, ← hdyEq, Int.toNat_of_nonneg (le_max_of_le_left hdxpos)]
  have hnext : ∀ k < lineSteps x0 y0 x1 y1, lineRound x1 y1 dx dy sx sy color (lineState x0 y0 x1 y1 color k) =
      .ok (.next (lineState x0 y0 x1 y1 color (k + 1))) := by
    intro k hk
    rw [lineState, lineState, lineCalls_succ]
    simp only [linePixel, ← hdxEq, ← hdyEq, ← hsxEq, ← hsyEq, Nat.cast_add, Nat.cast_one]
    by_cases hle : dy ≤ dx
    · rw [max_eq_left hle] at hsteps
      simp only [if_pos hle]
      rw [← hx, ← hy]
      exact lineRound_across hsx hsy hx0 hy0 (hx ▸ hx1) (hy ▸ hy1) (hdxEq ▸ hdx) ⟨hdypos, hle⟩ (by omega)
    · rw [max_eq_right (not_le.mp hle).le] at hsteps
      simp only [if_neg hle]
      rw [← hx, ← hy]
      exact lineRound_up hsx hsy hx0 hy0 (hx ▸ hx1) (hy ▸ hy1) (hdyEq ▸ hdy) ⟨hdxpos, not_le.mp hle⟩ (by omega)
  have hdone : lineRound x1 y1 dx dy sx sy color (lineState x0 y0 x1 y1 color (lineSteps x0 y0 x1 y1)) =
      .ok (.done (lineCalls x0 y0 x1 y1 color (lineSteps x0 y0 x1 y1 + 1))) := by
    rw [lineRound, lineState, linePixel_last, if_pos ⟨rfl, rfl⟩, lineCalls_succ, linePixel_last]
  have hstart : lineState x0 y0 x1 y1 color 0 = ⟨x0, y0, dx - dy, []⟩ := by
    rw [lineState, Nat.cast_zero, linePixel_zero, ← hdxEq, ← hdyEq]
    simp [rise_zero, hdxpos, hdypos, lineCalls]
  have hdxInt : abs (x1 - x0) = .ok dx := by
    have hrange := abs_le.mp hdx
    rw [hdxEq]
    exact abs_eq ⟨by omega, by omega⟩
  have hdyInt : abs (y1 - y0) = .ok dy := by
    have hrange := abs_le.mp hdy
    rw [hdyEq]
    exact abs_eq ⟨by omega, by omega⟩
  have hxrange := abs_le.mp hdx
  have hyrange := abs_le.mp hdy
  unfold drawLine
  rw [int_of_inInt ⟨by omega, by omega⟩, Exec.ok_bind, hdxInt, Exec.ok_bind, int_of_inInt ⟨by omega, by omega⟩,
    Exec.ok_bind, hdyInt, Exec.ok_bind]
  dsimp only
  rw [int_of_inInt ⟨by omega, by omega⟩, Exec.ok_bind, ← hsxEq, ← hsyEq, ← hstart]
  exact run_of_rounds hnext hdone hfuel

/-- Pixels from one end to the other: each one touches the next, and each one is within half a pixel of the line,
counted along the shorter side. -/
structure IsLine (l : List (ℤ × ℤ)) (x0 y0 x1 y1 : ℤ) : Prop where
  length : l.length = lineSteps x0 y0 x1 y1 + 1
  first : l.head? = some (x0, y0)
  last : l.getLast? = some (x1, y1)
  touch : l.IsChain fun p q => max |q.1 - p.1| |q.2 - p.2| = 1
  near : ∀ p ∈ l, 2 * |(p.1 - x0) * (y1 - y0) - (p.2 - y0) * (x1 - x0)| ≤ max |x1 - x0| |y1 - y0|

theorem abs_sign (a b : ℤ) : |(if a < b then 1 else -1 : ℤ)| = 1 := by
  split_ifs <;> rfl

theorem linePixel_touch (x0 y0 x1 y1 : ℤ) {k : ℕ} (hk : k < lineSteps x0 y0 x1 y1) :
    max |(linePixel x0 y0 x1 y1 (k + 1)).1 - (linePixel x0 y0 x1 y1 k).1|
      |(linePixel x0 y0 x1 y1 (k + 1)).2 - (linePixel x0 y0 x1 y1 k).2| = 1 := by
  have hk' : (k : ℤ) < max |x1 - x0| |y1 - y0| := by
    unfold lineSteps at hk
    omega
  have hstep : ∀ n m : ℤ, 0 < n → 0 ≤ m → m ≤ n → |rise n m (k + 1) - rise n m k| ≤ 1 := by
    intro n m hn hm hmn
    rcases rise_succ_sub hn hm hmn k with h | h <;> simp [h]
  have hsub : ∀ a s b c : ℤ, a + s * b - (a + s * c) = s * (b - c) := fun a s b c => by ring
  simp only [linePixel]
  by_cases hle : |y1 - y0| ≤ |x1 - x0|
  · rw [max_eq_left hle] at hk'
    simp only [if_pos hle, hsub, abs_mul, abs_sign, add_sub_cancel_left, one_mul, abs_one]
    exact max_eq_left (hstep _ _ (by omega) (abs_nonneg _) hle)
  · have hge := (not_le.mp hle).le
    rw [max_eq_right hge] at hk'
    simp only [if_neg hle, hsub, abs_mul, abs_sign, add_sub_cancel_left, one_mul, abs_one]
    exact max_eq_right (hstep _ _ (by omega) (abs_nonneg _) hge)

theorem linePixel_near (x0 y0 x1 y1 : ℤ) (k : ℕ) :
    2 * |((linePixel x0 y0 x1 y1 k).1 - x0) * (y1 - y0) - ((linePixel x0 y0 x1 y1 k).2 - y0) * (x1 - x0)| ≤
      max |x1 - x0| |y1 - y0| := by
  obtain ⟨sx, hsx⟩ : ∃ sx : ℤ, sx = if x0 < x1 then 1 else -1 := ⟨_, rfl⟩
  obtain ⟨sy, hsy⟩ : ∃ sy : ℤ, sy = if y0 < y1 then 1 else -1 := ⟨_, rfl⟩
  have hx : x1 - x0 = sx * |x1 - x0| := by
    have hside := side_eq x0 x1
    rw [← hsx] at hside
    omega
  have hy : y1 - y0 = sy * |y1 - y0| := by
    have hside := side_eq y0 y1
    rw [← hsy] at hside
    omega
  have hsxAbs : |sx| = 1 := hsx ▸ abs_sign x0 x1
  have hsyAbs : |sy| = 1 := hsy ▸ abs_sign y0 y1
  have hcross : ∀ a b : ℤ, sx * a * (y1 - y0) - sy * b * (x1 - x0) = sx * sy * (a * |y1 - y0| - b * |x1 - x0|) := by
    intro a b
    have hring : sx * a * (sy * |y1 - y0|) - sy * b * (sx * |x1 - x0|) =
        sx * sy * (a * |y1 - y0| - b * |x1 - x0|) := by ring
    rwa [← hx, ← hy] at hring
  simp only [linePixel, ← hsx, ← hsy]
  by_cases hle : |y1 - y0| ≤ |x1 - x0|
  · simp only [if_pos hle, add_sub_cancel_left, hcross, abs_mul, hsxAbs, hsyAbs, one_mul, max_eq_left hle]
    exact abs_rise_sub_le (abs_nonneg _) hle k
  · have hge := (not_le.mp hle).le
    simp only [if_neg hle, add_sub_cancel_left, hcross, abs_mul, hsxAbs, hsyAbs, one_mul, max_eq_right hge]
    rw [abs_sub_comm]
    exact abs_rise_sub_le (abs_nonneg _) hge k

theorem isLine_linePixels (x0 y0 x1 y1 : ℤ) :
    IsLine ((List.range (lineSteps x0 y0 x1 y1 + 1)).map fun k : ℕ => linePixel x0 y0 x1 y1 k) x0 y0 x1 y1 where
  length := by simp
  first := by simp [List.range_succ_eq_map, linePixel_zero]
  last := by simp [List.range_succ, linePixel_last]
  touch := by
    rw [List.isChain_map, List.isChain_iff_getElem]
    intro i hi
    simp only [List.length_range, List.getElem_range] at hi ⊢
    rw [Nat.cast_add, Nat.cast_one]
    exact linePixel_touch x0 y0 x1 y1 (by omega)
  near := by
    intro p hp
    obtain ⟨k, hk, rfl⟩ := List.mem_map.mp hp
    exact linePixel_near x0 y0 x1 y1 k

/-- A line is drawn to its end without overflow, and it is as near as pixels can be. -/
theorem drawLine_isLine {fb : Framebuffer} {pixels : List (BitVec 32)} (hsize : pixels.length = fb.size)
    {x0 y0 x1 y1 : ℤ} (hx0 : InInt x0) (hy0 : InInt y0) (hx1 : InInt x1) (hy1 : InInt y1)
    (hdx : |x1 - x0| ≤ 2 ^ 29) (hdy : |y1 - y0| ≤ 2 ^ 29) {fuel : ℕ} (hfuel : lineSteps x0 y0 x1 y1 < fuel) :
    ∃ l, IsLine l x0 y0 x1 y1 ∧ drawLine fuel x0 y0 x1 y1 color = .ok (some (l.map fun p => (p, color))) ∧
      ∃ pixels', fb.draw pixels (drawLine fuel x0 y0 x1 y1 color) = .ok (some pixels') ∧
        fb.Coloured pixels pixels' {p | p ∈ l} color := by
  obtain ⟨l, hl⟩ : ∃ l, l = (List.range (lineSteps x0 y0 x1 y1 + 1)).map fun k : ℕ => linePixel x0 y0 x1 y1 k :=
    ⟨_, rfl⟩
  have hdraw : drawLine fuel x0 y0 x1 y1 color = .ok (some (l.map fun p => (p, color))) := by
    rw [drawLine_eq hx0 hy0 hx1 hy1 hdx hdy hfuel, hl, List.map_map]
    rfl
  have hdraws : Draws (drawLine fuel x0 y0 x1 y1 color) {p | p ∈ l} color := by
    refine ⟨_, hdraw, ?_⟩
    exact (fills_map l (fun p => p) color).congr (by simp)
  exact ⟨l, hl ▸ isLine_linePixels x0 y0 x1 y1, hdraw, hdraws.coloured hsize⟩

theorem drawLine_small :
    ∃ l, IsLine l 1 4 6 2 ∧ drawLine 9 1 4 6 2 7 = .ok (some (l.map fun p => (p, 7))) ∧
      ∃ pixels', Framebuffer.small.draw (List.replicate 48 0) (drawLine 9 1 4 6 2 7) = .ok (some pixels') ∧
        Framebuffer.small.Coloured (List.replicate 48 0) pixels' {p | p ∈ l} 7 :=
  drawLine_isLine rfl (by decide) (by decide) (by decide) (by decide) (by decide) (by decide) (by decide)

end Lines

end DualFuse.Gui
