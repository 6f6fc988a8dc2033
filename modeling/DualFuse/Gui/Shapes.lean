import DualFuse.Gui.Lines

/-! Circles and filled shapes (`GUI/gui_primitives.cpp`). -/

namespace DualFuse.Gui

open Library Library.Painting Library.Raster Library.Loop Utility.Numbers

/-! ### Circles -/

structure CircleState where
  x : ℤ
  y : ℤ
  err : ℤ
  calls : List Stroke

/-- The eight calls of a round. -/
def octants (cx cy x y : ℤ) (color : BitVec 32) : Exec (List Stroke) := do
  .ok [← pixel (cx + x) (cy + y) color, ← pixel (cx + y) (cy + x) color, ← pixel (cx - y) (cy + x) color,
    ← pixel (cx - x) (cy + y) color, ← pixel (cx - x) (cy - y) color, ← pixel (cx - y) (cy - x) color,
    ← pixel (cx + y) (cy - x) color, ← pixel (cx + x) (cy - y) color]

/-- `if (err <= 0) { y += 1; err += 2 * y + 1; }`. -/
def circleDown (err y : ℤ) : Exec (ℤ × ℤ) :=
  if err ≤ 0 then do
    let y ← int (y + 1)
    let grown ← int ((← int (2 * y)) + 1)
    .ok (← int (err + grown), y)
  else .ok (err, y)

/-- `if (err > 0) { x -= 1; err -= 2 * x + 1; }`. -/
def circleLeft (err x : ℤ) : Exec (ℤ × ℤ) :=
  if err > 0 then do
    let x ← int (x - 1)
    let shrunk ← int ((← int (2 * x)) + 1)
    .ok (← int (err - shrunk), x)
  else .ok (err, x)

/-- One round of `while (x >= y)`. -/
def circleRound (cx cy : ℤ) (color : BitVec 32) (s : CircleState) : Exec (Round CircleState (List Stroke)) :=
  if s.x ≥ s.y then do
    let calls ← octants cx cy s.x s.y color
    let (err, y) ← circleDown s.err s.y
    let (err, x) ← circleLeft err s.x
    .ok (.next ⟨x, y, err, s.calls ++ calls⟩)
  else .ok (.done s.calls)

def drawCircle (fuel : ℕ) (cx cy radius : ℤ) (color : BitVec 32) : Drawing :=
  Loop.run (circleRound cx cy color) fuel ⟨radius, 0, 0, []⟩

section Circles
variable {cx cy r x y : ℤ} {color : BitVec 32} {k n : ℕ}

/-- The eight places of a round. -/
def octantPlaces (cx cy x y : ℤ) : List (ℤ × ℤ) :=
  [(cx + x, cy + y), (cx + y, cy + x), (cx - y, cy + x), (cx - x, cy + y), (cx - x, cy - y), (cx - y, cy - x),
    (cx + y, cy - x), (cx + x, cy - y)]

def circleCalls (cx cy r : ℤ) (color : BitVec 32) (k : ℕ) : List Stroke :=
  (List.range k).flatMap fun j : ℕ => (octantPlaces cx cy (arc r j) j).map fun p => (p, color)

theorem octants_eq (hx : InInt (cx - r)) (hx' : InInt (cx + r)) (hy : InInt (cy - r)) (hy' : InInt (cy + r))
    (h : OnArc r x y) (hxr : x ≤ r) :
    octants cx cy x y color = .ok ((octantPlaces cx cy x y).map fun p => (p, color)) := by
  have hpos := h.nonneg
  have hle := h.octant
  have hacross : ∀ d, -r ≤ d → d ≤ r → int (cx + d) = .ok (cx + d) :=
    fun d hd hd' => int_of_inInt (inInt_between hx hx' (by omega) (by omega))
  have hdown : ∀ d, -r ≤ d → d ≤ r → int (cy + d) = .ok (cy + d) :=
    fun d hd hd' => int_of_inInt (inInt_between hy hy' (by omega) (by omega))
  simp only [octants, pixel, sub_eq_add_neg, octantPlaces, List.map_cons, List.map_nil]
  rw [hacross x (by omega) hxr, hacross y (by omega) (by omega), hacross (-x) (by omega) (by omega),
    hacross (-y) (by omega) (by omega), hdown x (by omega) hxr, hdown y (by omega) (by omega),
    hdown (-x) (by omega) (by omega), hdown (-y) (by omega) (by omega)]
  rfl

/-- The state of the loop after `k` rounds. -/
def circleState (cx cy r : ℤ) (color : BitVec 32) (k : ℕ) : CircleState where
  x := arc r k
  y := k
  err := arc r k * arc r k + k * k + 2 * k - r * r
  calls := circleCalls cx cy r color k

theorem circleCalls_succ (cx cy r : ℤ) (color : BitVec 32) (k : ℕ) :
    circleCalls cx cy r color (k + 1) =
      circleCalls cx cy r color k ++ (octantPlaces cx cy (arc r k) k).map fun p => (p, color) := by
  simp [circleCalls, List.range_succ]

theorem circleDown_eq {err y : ℤ} (herr : err ≤ 0) (hrange : -2 ^ 31 ≤ err) (hy : 0 ≤ y ∧ y ≤ 2 ^ 29) :
    circleDown err y = .ok (err + (2 * (y + 1) + 1), y + 1) := by
  rw [circleDown, if_pos herr, int_of_inInt ⟨by omega, by omega⟩, Exec.ok_bind, int_of_inInt ⟨by omega, by omega⟩,
    Exec.ok_bind, int_of_inInt ⟨by omega, by omega⟩, Exec.ok_bind, int_of_inInt ⟨by omega, by omega⟩, Exec.ok_bind]

theorem circleLeft_eq {err x : ℤ} (hrange : err ≤ 2 ^ 31 - 2) (hx : 0 ≤ x ∧ x ≤ 2 ^ 29) :
    circleLeft err x = .ok (if err > 0 then err - (2 * (x - 1) + 1) else err, if err > 0 then x - 1 else x) := by
  unfold circleLeft
  split_ifs with hpos
  · rw [int_of_inInt ⟨by omega, by omega⟩, Exec.ok_bind, int_of_inInt ⟨by omega, by omega⟩, Exec.ok_bind,
      int_of_inInt ⟨by omega, by omega⟩, Exec.ok_bind, int_of_inInt ⟨by omega, by omega⟩, Exec.ok_bind]
  · rfl

theorem circleRound_next (hx : InInt (cx - r)) (hx' : InInt (cx + r)) (hy : InInt (cy - r)) (hy' : InInt (cy + r))
    (hr : 0 ≤ r) (hsmall : r ≤ 2 ^ 29) (hin : InOctant r k) :
    circleRound cx cy color (circleState cx cy r color k) = .ok (.next (circleState cx cy r color (k + 1))) := by
  have harc := onArc_arc hr hin
  have hnonneg := harc.octant
  have hle := arc_le r k
  obtain ⟨e, he⟩ : ∃ e, e = arc r k * arc r k + k * k + 2 * k - r * r := ⟨_, rfl⟩
  have hin' : e ≤ 0 := by
    have hinside := harc.inside
    rw [he]
    linarith
  have hout : -(2 * arc r k + 1) < e := by
    have houtside := harc.outside
    rw [he]
    linarith
  have hnext : e + (2 * ((k : ℤ) + 1) + 1) = arc r k * arc r k + (k + 1) * (k + 1) + 2 * (k + 1) - r * r := by
    rw [he]
    ring
  have hgrown : e + (2 * ((k : ℤ) + 1) + 1) ≤ 2 ^ 31 - 2 := by omega
  rw [circleRound, circleState, circleState, circleCalls_succ]
  dsimp only
  rw [if_pos hnonneg, octants_eq hx hx' hy hy' harc hle, Exec.ok_bind, ← he,
    circleDown_eq hin' (by omega) ⟨by omega, by omega⟩, Exec.ok_bind]
  dsimp only
  rw [circleLeft_eq hgrown ⟨by omega, by omega⟩, Exec.ok_bind, arc, hnext]
  dsimp only
  push_cast
  by_cases hleft : arc r k * arc r k + ((k : ℤ) + 1) * (k + 1) + 2 * (k + 1) - r * r > 0
  · have herr : arc r k * arc r k + ((k : ℤ) + 1) * (k + 1) + 2 * (k + 1) - r * r - (2 * (arc r k - 1) + 1) =
        (arc r k - 1) * (arc r k - 1) + (k + 1) * (k + 1) + 2 * (k + 1) - r * r := by ring
    simp only [if_pos hleft, herr]
  · simp only [if_neg hleft]

/-- A circle is drawn to the end, and its calls are those of the arc. -/
theorem drawCircle_eq (hx : InInt (cx - r)) (hx' : InInt (cx + r)) (hy : InInt (cy - r)) (hy' : InInt (cy + r))
    (hr : 0 ≤ r) (hsmall : r ≤ 2 ^ 29) (hin : InOctant r n) (hout : arc r (n + 1) < n + 1) {fuel : ℕ}
    (hfuel : n + 1 < fuel) :
    drawCircle fuel cx cy r color = .ok (some (circleCalls cx cy r color (n + 1))) := by
  have hnext : ∀ k < n + 1, circleRound cx cy color (circleState cx cy r color k) =
      .ok (.next (circleState cx cy r color (k + 1))) :=
    fun k hk => circleRound_next hx hx' hy hy' hr hsmall fun j hj => hin j (by omega)
  have hdone : circleRound cx cy color (circleState cx cy r color (n + 1)) =
      .ok (.done (circleCalls cx cy r color (n + 1))) := by
    rw [circleRound, circleState, if_neg (by push_cast; omega)]
  have hstart : circleState cx cy r color 0 = ⟨r, 0, 0, []⟩ := by
    simp [circleState, arc, circleCalls]
  rw [drawCircle, ← hstart]
  exact run_of_rounds hnext hdone hfuel

theorem exists_last_row (hr : 0 ≤ r) : ∃ n : ℕ, InOctant r n ∧ arc r (n + 1) < n + 1 ∧ n ≤ r.toNat := by
  have hexists : ∃ n : ℕ, arc r (n + 1) < n + 1 := by
    refine ⟨r.toNat, ?_⟩
    have hle := arc_le r (r.toNat + 1)
    omega
  refine ⟨Nat.find hexists, ?_, Nat.find_spec hexists, Nat.find_min' hexists ?_⟩
  · intro j hj
    cases j with
    | zero => exact hr
    | succ j =>
      have hnot := Nat.find_min hexists (show j < Nat.find hexists by omega)
      push_cast
      omega
  · have hle := arc_le r (r.toNat + 1)
    omega

/-- A pixel of the circle: its distances from the centre belong to the arc, the longer one first. -/
def circle (cx cy r : ℤ) : Set (ℤ × ℤ) :=
  {p | OnArc r (max |p.1 - cx| |p.2 - cy|) (min |p.1 - cx| |p.2 - cy|)}

theorem mem_octantPlaces_iff {p : ℤ × ℤ} (hy : 0 ≤ y) (hx : y ≤ x) :
    p ∈ octantPlaces cx cy x y ↔ max |p.1 - cx| |p.2 - cy| = x ∧ min |p.1 - cx| |p.2 - cy| = y := by
  simp only [octantPlaces, List.mem_cons, List.not_mem_nil, or_false, Prod.ext_iff, abs_eq_max_neg]
  omega

theorem draws_drawCircle (hx : InInt (cx - r)) (hx' : InInt (cx + r)) (hy : InInt (cy - r)) (hy' : InInt (cy + r))
    (hr : 0 ≤ r) (hsmall : r ≤ 2 ^ 29) {fuel : ℕ} (hfuel : r + 1 < fuel) :
    Draws (drawCircle fuel cx cy r color) (circle cx cy r) color := by
  obtain ⟨n, hin, hout, hn⟩ := exists_last_row hr
  refine ⟨_, drawCircle_eq hx hx' hy hy' hr hsmall hin hout (by omega), ?_, ?_⟩
  · intro s hs
    obtain ⟨j, hj, hs⟩ := List.mem_flatMap.mp hs
    obtain ⟨p, hp, rfl⟩ := List.mem_map.mp hs
    rfl
  · intro p
    constructor
    · intro hp
      obtain ⟨v, hv⟩ := Int.eq_ofNat_of_zero_le (OnArc.nonneg hp)
      rw [circle, Set.mem_ofPred_eq, hv] at hp
      have hvn : v ≤ n := by
        by_contra hgt
        have hfar := outside_of_arc_lt hr hin hout
        have hinside := hp.inside
        have hoctant := hp.octant
        have hrow : ((n : ℤ) + 1) * (n + 1) ≤ v * v := by
          have hle : (n : ℤ) + 1 ≤ v := by omega
          nlinarith
        have hwide : (v : ℤ) * v ≤ max |p.1 - cx| |p.2 - cy| * max |p.1 - cx| |p.2 - cy| := by nlinarith
        nlinarith
      have harc := onArc_arc hr fun j hj => hin j (hj.trans hvn)
      refine ⟨(p, color), List.mem_flatMap.mpr ⟨v, List.mem_range.mpr (by omega), ?_⟩, rfl⟩
      apply List.mem_map_of_mem
      exact (mem_octantPlaces_iff harc.nonneg harc.octant).mpr ⟨hp.eq harc, hv⟩
    · rintro ⟨s, hs, rfl⟩
      obtain ⟨j, hj, hs⟩ := List.mem_flatMap.mp hs
      obtain ⟨p, hp, rfl⟩ := List.mem_map.mp hs
      rw [List.mem_range] at hj
      have harc := onArc_arc hr fun i (hi : i ≤ j) => hin i (by omega)
      obtain ⟨hmax, hmin⟩ := (mem_octantPlaces_iff harc.nonneg harc.octant).mp hp
      rw [circle, Set.mem_ofPred_eq, hmax, hmin]
      exact harc

/-- A circle is drawn to its end without overflow: its pixels are those that the circle crosses in their octant, and
all of them belong to the disc. -/
theorem drawCircle_crossed {fb : Framebuffer} {pixels : List (BitVec 32)} (hsize : pixels.length = fb.size)
    (hx : InInt (cx - r)) (hx' : InInt (cx + r)) (hy : InInt (cy - r)) (hy' : InInt (cy + r)) (hr : 0 ≤ r)
    (hsmall : r ≤ 2 ^ 29) {fuel : ℕ} (hfuel : r + 1 < fuel) :
    (∃ pixels', fb.draw pixels (drawCircle fuel cx cy r color) = .ok (some pixels') ∧
      fb.Coloured pixels pixels' (circle cx cy r) color) ∧
    ∀ p ∈ circle cx cy r, |p.1 - cx| * |p.1 - cx| + |p.2 - cy| * |p.2 - cy| ≤ r * r ∧
      r * r < (|p.1 - cx| + 1) * (|p.1 - cx| + 1) + (|p.2 - cy| + 1) * (|p.2 - cy| + 1) := by
  refine ⟨(draws_drawCircle hx hx' hy hy' hr hsmall hfuel).coloured hsize, fun p hp => ?_⟩
  have hcrossed := OnArc.crossed hp
  rcases le_total |p.1 - cx| |p.2 - cy| with hle | hle
  · rw [max_eq_right hle, min_eq_left hle] at hcrossed
    exact ⟨by linarith [hcrossed.1], by linarith [hcrossed.2]⟩
  · rwa [max_eq_left hle, min_eq_right hle] at hcrossed

theorem drawCircle_small :
    (∃ pixels', Framebuffer.small.draw (List.replicate 48 0) (drawCircle 9 4 3 2 7) = .ok (some pixels') ∧
      Framebuffer.small.Coloured (List.replicate 48 0) pixels' (circle 4 3 2) 7) ∧
    ∀ p ∈ circle 4 3 2, |p.1 - 4| * |p.1 - 4| + |p.2 - 3| * |p.2 - 3| ≤ 2 * 2 ∧
      2 * 2 < (|p.1 - 4| + 1) * (|p.1 - 4| + 1) + (|p.2 - 3| + 1) * (|p.2 - 3| + 1) :=
  drawCircle_crossed rfl (by decide) (by decide) (by decide) (by decide) (by decide) (by decide) (by decide)

end Circles

/-! ### Filled shapes -/

/-- `for (int y = -size; y <= size; y++)` with the same for `x`, where a test holds. -/
def fillWhere (cx cy size : ℤ) (test : ℤ → ℤ → Exec Bool) (color : BitVec 32) : Drawing :=
  forLoop (-size) (size + 1) fun y => forLoop (-size) (size + 1) fun x => do
    if ← test x y then plot (cx + x) (cy + y) color else .ok (some [])

def fillCircle (cx cy radius : ℤ) (color : BitVec 32) : Drawing :=
  fillWhere cx cy radius (fun x y => do
    .ok (decide ((← int ((← int (x * x)) + (← int (y * y)))) ≤ (← int (radius * radius))))) color

def fillDiamond (cx cy size : ℤ) (color : BitVec 32) : Drawing :=
  fillWhere cx cy size (fun x y => do .ok (decide ((← int ((← abs x) + (← abs y))) ≤ size))) color

def fillRoundedRectangle (x y width height cornerRadius : ℤ) (color : BitVec 32) : Drawing := do
  let left ← int (x + cornerRadius)
  let top ← int (y + cornerRadius)
  let across ← int (2 * cornerRadius)
  let right ← int ((← int ((← int (x + width)) - cornerRadius)) - 1)
  let bottom ← int ((← int ((← int (y + height)) - cornerRadius)) - 1)
  inTurn
    [fillRectangle left y (width - across) height color, fillRectangle x top width (height - across) color,
      fillCircle left top cornerRadius color, fillCircle right top cornerRadius color,
      fillCircle left bottom cornerRadius color, fillCircle right bottom cornerRadius color]

section Filled
variable {cx cy r size x y width height cornerRadius : ℤ} {color : BitVec 32}

theorem draws_fillWhere {test : ℤ → ℤ → Exec Bool} {inside : ℤ → ℤ → Prop} [∀ x y, Decidable (inside x y)]
    (hx : InInt (cx - size)) (hx' : InInt (cx + size)) (hy : InInt (cy - size)) (hy' : InInt (cy + size))
    (htest : ∀ x y, -size ≤ x → x ≤ size → -size ≤ y → y ≤ size → test x y = .ok (decide (inside x y))) :
    Draws (fillWhere cx cy size test color)
      {p | inside (p.1 - cx) (p.2 - cy) ∧ |p.1 - cx| ≤ size ∧ |p.2 - cy| ≤ size} color := by
  have hpixel : ∀ y, -size ≤ y → y < size + 1 → ∀ x, -size ≤ x → x < size + 1 →
      Draws (do if ← test x y then plot (cx + x) (cy + y) color else .ok (some []))
        {p | inside x y ∧ p = (cx + x, cy + y)} color := by
    intro y hylow hyhigh x hxlow hxhigh
    rw [htest x y hxlow (by omega) hylow (by omega), Exec.ok_bind]
    by_cases hin : inside x y
    · simp only [hin, decide_true, if_true, true_and]
      exact draws_plot (inInt_between hx hx' (by omega) (by omega)) (inInt_between hy hy' (by omega) (by omega))
    · simp only [hin, decide_false, false_and]
      exact ⟨[], rfl, by simp [Fills]⟩
  apply (draws_forLoop fun y hylow hyhigh => draws_forLoop (hpixel y hylow hyhigh)).congr
  rintro ⟨px, py⟩
  simp only [Set.mem_ofPred_eq, Prod.mk.injEq, abs_le]
  constructor
  · rintro ⟨y, hylow, hyhigh, x, hxlow, hxhigh, hin, rfl, rfl⟩
    rw [add_sub_cancel_left, add_sub_cancel_left]
    exact ⟨hin, ⟨hxlow, by omega⟩, hylow, by omega⟩
  · rintro ⟨hin, ⟨hxlow, hxhigh⟩, hylow, hyhigh⟩
    exact ⟨py - cy, hylow, by omega, px - cx, hxlow, by omega, hin, by omega, by omega⟩

theorem abs_le_of_inside {d e r : ℤ} (hr : 0 ≤ r) (h : d * d + e * e ≤ r * r) : |d| ≤ r ∧ |e| ≤ r := by
  rw [abs_le, abs_le]
  refine ⟨⟨?_, ?_⟩, ?_, ?_⟩ <;> nlinarith

def disc (cx cy r : ℤ) : Set (ℤ × ℤ) :=
  {p | (p.1 - cx) * (p.1 - cx) + (p.2 - cy) * (p.2 - cy) ≤ r * r}

theorem draws_fillCircle (hx : InInt (cx - r)) (hx' : InInt (cx + r)) (hy : InInt (cy - r)) (hy' : InInt (cy + r))
    (hr : 0 ≤ r) (hsmall : r ≤ 32767) : Draws (fillCircle cx cy r color) (disc cx cy r) color := by
  have hsquare : ∀ d, -r ≤ d → d ≤ r → 0 ≤ d * d ∧ d * d ≤ 1073676289 := by
    intro d hlow hhigh
    constructor
    · exact mul_self_nonneg d
    · nlinarith
  have htest : ∀ x y, -r ≤ x → x ≤ r → -r ≤ y → y ≤ r →
      (do .ok (decide ((← int ((← int (x * x)) + (← int (y * y)))) ≤ (← int (r * r)))) : Exec Bool) =
        .ok (decide (x * x + y * y ≤ r * r)) := by
    intro x y hxlow hxhigh hylow hyhigh
    have hxx := hsquare x hxlow hxhigh
    have hyy := hsquare y hylow hyhigh
    have hrr := hsquare r (by omega) le_rfl
    simp only [int_of_inInt (x := x * x) ⟨by omega, by omega⟩, int_of_inInt (x := y * y) ⟨by omega, by omega⟩,
      int_of_inInt (x := r * r) ⟨by omega, by omega⟩, int_of_inInt (x := x * x + y * y) ⟨by omega, by omega⟩,
      Exec.ok_bind]
  apply (draws_fillWhere hx hx' hy hy' htest).congr
  intro p
  constructor
  · exact fun h => h.1
  · intro h
    exact ⟨h, abs_le_of_inside hr h⟩

/-- The pixels within `r` of the rectangle that is left when `r` is taken away on every side. -/
def roundedRectangle (x y width height r : ℤ) : Set (ℤ × ℤ) :=
  {p | ∃ q ∈ rectangle (x + r) (y + r) (width - 2 * r) (height - 2 * r), p ∈ disc q.1 q.2 r}

/-- One side of a rounded rectangle: the place of the inner rectangle that is nearest. -/
theorem exists_near {a n r p : ℤ} (hwide : 2 * r < n) :
    ∃ q, (a + r ≤ q ∧ q < a + n - r) ∧
      (p < a + r ∧ q = a + r ∨ (a + r ≤ p ∧ p < a + n - r) ∧ q = p ∨ a + n - r ≤ p ∧ q = a + n - r - 1) := by
  by_cases hlow : p < a + r
  · exact ⟨a + r, ⟨le_rfl, by omega⟩, .inl ⟨hlow, rfl⟩⟩
  by_cases hhigh : p < a + n - r
  · exact ⟨p, ⟨by omega, hhigh⟩, .inr (.inl ⟨⟨by omega, hhigh⟩, rfl⟩)⟩
  · exact ⟨a + n - r - 1, ⟨by omega, by omega⟩, .inr (.inr ⟨by omega, rfl⟩)⟩

theorem draws_fillRoundedRectangle (h : Fits x y width height) (hr : 0 ≤ cornerRadius)
    (hsmall : cornerRadius ≤ 32767) (hwidth : 2 * cornerRadius < width) (hheight : 2 * cornerRadius < height) :
    Draws (fillRoundedRectangle x y width height cornerRadius color)
      (roundedRectangle x y width height cornerRadius) color := by
  obtain ⟨r, hrEq⟩ : ∃ r, r = cornerRadius := ⟨_, rfl⟩
  rw [← hrEq] at hr hsmall hwidth hheight ⊢
  have hacross : ∀ a, x ≤ a → a ≤ x + width → InInt a := fun a => inInt_between h.left h.right
  have hdown : ∀ b, y ≤ b → b ≤ y + height → InInt b := fun b => inInt_between h.top h.bottom
  have hdisc : ∀ a b, x + r ≤ a → a < x + width - r → y + r ≤ b → b < y + height - r →
      Draws (fillCircle a b r color) (disc a b r) color := fun a b ha ha' hb hb' =>
    draws_fillCircle (hacross _ (by omega) (by omega)) (hacross _ (by omega) (by omega))
      (hdown _ (by omega) (by omega)) (hdown _ (by omega) (by omega)) hr hsmall
  have hmiddle := @draws_fillRectangle color (x + r) y (width - 2 * r) height
    ⟨hacross _ (by omega) (by omega), h.top, hacross _ (by omega) (by omega), h.bottom⟩
  have hsides := @draws_fillRectangle color x (y + r) width (height - 2 * r)
    ⟨h.left, hdown _ (by omega) (by omega), h.right, hdown _ (by omega) (by omega)⟩
  unfold fillRoundedRectangle
  rw [int_of_inInt (hacross (x + r) (by omega) (by omega)), Exec.ok_bind,
    int_of_inInt (hdown (y + r) (by omega) (by omega)), Exec.ok_bind,
    int_of_inInt (x := 2 * r) ⟨by omega, by omega⟩, Exec.ok_bind, int_of_inInt h.right, Exec.ok_bind,
    int_of_inInt (hacross (x + width - r) (by omega) (by omega)), Exec.ok_bind,
    int_of_inInt (hacross (x + width - r - 1) (by omega) (by omega)), Exec.ok_bind, int_of_inInt h.bottom,
    Exec.ok_bind, int_of_inInt (hdown (y + height - r) (by omega) (by omega)), Exec.ok_bind,
    int_of_inInt (hdown (y + height - r - 1) (by omega) (by omega)), Exec.ok_bind]
  apply (draws_inTurn_cons hmiddle (draws_inTurn_cons hsides (draws_inTurn_cons
    (hdisc (x + r) (y + r) le_rfl (by omega) le_rfl (by omega)) (draws_inTurn_cons
    (hdisc (x + width - r - 1) (y + r) (by omega) (by omega) le_rfl (by omega)) (draws_inTurn_cons
    (hdisc (x + r) (y + height - r - 1) le_rfl (by omega) (by omega) (by omega)) (draws_inTurn_cons
    (hdisc (x + width - r - 1) (y + height - r - 1) (by omega) (by omega) (by omega) (by omega))
    draws_inTurn_nil)))))).congr
  rintro ⟨px, py⟩
  simp only [Set.mem_union, Set.mem_empty_iff_false, or_false]
  constructor
  · rintro (⟨⟨hx, hx'⟩, hy, hy'⟩ | ⟨⟨hx, hx'⟩, hy, hy'⟩ | hin | hin | hin | hin)
    · obtain ⟨b, hb, hnear⟩ := exists_near (a := y) (p := py) hheight
      refine ⟨(px, b), ⟨⟨hx, hx'⟩, hb.1, by omega⟩, ?_⟩
      have hle : |py - b| ≤ r := abs_le.mpr ⟨by omega, by omega⟩
      simpa [disc] using abs_le_iff_mul_self_le.mp (hle.trans (le_abs_self r))
    · obtain ⟨a, ha, hnear⟩ := exists_near (a := x) (p := px) hwidth
      refine ⟨(a, py), ⟨⟨ha.1, by omega⟩, hy, hy'⟩, ?_⟩
      have hle : |px - a| ≤ r := abs_le.mpr ⟨by omega, by omega⟩
      simpa [disc] using abs_le_iff_mul_self_le.mp (hle.trans (le_abs_self r))
    · exact ⟨(x + r, y + r), ⟨⟨le_rfl, by omega⟩, le_rfl, by omega⟩, hin⟩
    · exact ⟨(x + width - r - 1, y + r), ⟨⟨by omega, by omega⟩, le_rfl, by omega⟩, hin⟩
    · exact ⟨(x + r, y + height - r - 1), ⟨⟨le_rfl, by omega⟩, by omega, by omega⟩, hin⟩
    · exact ⟨(x + width - r - 1, y + height - r - 1), ⟨⟨by omega, by omega⟩, by omega, by omega⟩, hin⟩
  · rintro ⟨⟨a, b⟩, ⟨⟨hax, hax'⟩, hby, hby'⟩, hin⟩
    have hin' : (px - a) * (px - a) + (py - b) * (py - b) ≤ r * r := hin
    obtain ⟨hnearX, hnearY⟩ := abs_le_of_inside hr hin'
    rw [abs_le] at hnearX hnearY
    dsimp only at hax hax' hby hby'
    have hcorner : ∀ a' b', (a' ≤ a ∧ px ≤ a' ∨ a ≤ a' ∧ a' ≤ px) → (b' ≤ b ∧ py ≤ b' ∨ b ≤ b' ∧ b' ≤ py) →
        (px, py) ∈ disc a' b' r := by
      intro a' b' ha' hb'
      have hsqX : (px - a') * (px - a') ≤ (px - a) * (px - a) := by
        rcases ha' with ⟨h₁, h₂⟩ | ⟨h₁, h₂⟩ <;> nlinarith
      have hsqY : (py - b') * (py - b') ≤ (py - b) * (py - b) := by
        rcases hb' with ⟨h₁, h₂⟩ | ⟨h₁, h₂⟩ <;> nlinarith
      exact (add_le_add hsqX hsqY).trans hin'
    by_cases hleft : px < x + r
    · by_cases htop : py < y + r
      · exact .inr (.inr (.inl (hcorner _ _ (.inl ⟨hax, hleft.le⟩) (.inl ⟨hby, htop.le⟩))))
      by_cases hbottom : py < y + height - r
      · exact .inr (.inl (mem_rectangle (by omega) (by omega) (by omega) (by omega)))
      · exact .inr (.inr (.inr (.inr (.inl (hcorner _ _ (.inl ⟨hax, hleft.le⟩) (.inr ⟨by omega, by omega⟩))))))
    by_cases hright : px < x + width - r
    · exact .inl (mem_rectangle (by omega) (by omega) (by omega) (by omega))
    · by_cases htop : py < y + r
      · exact .inr (.inr (.inr (.inl (hcorner _ _ (.inr ⟨by omega, by omega⟩) (.inl ⟨hby, htop.le⟩)))))
      by_cases hbottom : py < y + height - r
      · exact .inr (.inl (mem_rectangle (by omega) (by omega) (by omega) (by omega)))
      · exact .inr (.inr (.inr (.inr (.inr (hcorner _ _ (.inr ⟨by omega, by omega⟩) (.inr ⟨by omega, by omega⟩))))))

theorem fillRoundedRectangle_coloured {fb : Framebuffer} {pixels : List (BitVec 32)} (hsize : pixels.length = fb.size)
    (h : Fits x y width height) (hr : 0 ≤ cornerRadius) (hsmall : cornerRadius ≤ 32767)
    (hwidth : 2 * cornerRadius < width) (hheight : 2 * cornerRadius < height) :
    ∃ pixels', fb.draw pixels (fillRoundedRectangle x y width height cornerRadius color) = .ok (some pixels') ∧
      fb.Coloured pixels pixels' (roundedRectangle x y width height cornerRadius) color :=
  (draws_fillRoundedRectangle h hr hsmall hwidth hheight).coloured hsize

theorem fillRoundedRectangle_small :
    ∃ pixels', Framebuffer.small.draw (List.replicate 48 0) (fillRoundedRectangle 1 1 6 4 1 7) =
        .ok (some pixels') ∧
      Framebuffer.small.Coloured (List.replicate 48 0) pixels' (roundedRectangle 1 1 6 4 1) 7 :=
  fillRoundedRectangle_coloured rfl ⟨by decide, by decide, by decide, by decide⟩ (by decide) (by decide) (by decide)
    (by decide)

end Filled

end DualFuse.Gui
