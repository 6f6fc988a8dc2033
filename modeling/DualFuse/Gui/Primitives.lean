import DualFuse.Library.Painting
import DualFuse.Utility.Numbers

/-! The drawing primitives (`GUI/gui_primitives.cpp`) and the buffer that they draw into (`draw_pixel` of
`framebufferutil.cpp`). A primitive is the list of its calls of `draw_pixel`, and a signed operation that
overflows is a fault. -/

namespace DualFuse.Gui

open Library Library.Painting Library.CString Utility.Numbers

/-- A call of `draw_pixel`: where, and the colour. -/
abbrev Stroke := (ℤ × ℤ) × BitVec 32

/-! ### The buffer -/

/-- The sizes of the buffer: `pitch / 4` words for each row, of which `screen_width` are shown. -/
structure Framebuffer where
  screenWidth : ℕ
  screenHeight : ℕ
  stride : ℕ
  width_le : screenWidth ≤ stride

namespace Framebuffer

variable (fb : Framebuffer)

/-- The words of `tempframebuffer->address`. -/
def size : ℕ := fb.screenHeight * fb.stride

def drawPixel (pixels : List (BitVec 32)) (s : Stroke) : Exec (List (BitVec 32)) :=
  if s.1.1 < 0 ∨ s.1.2 < 0 then .ok pixels
  else if fb.screenWidth ≤ s.1.1 ∨ fb.screenHeight ≤ s.1.2 then .ok pixels
  else setAt pixels (s.1.1.toNat + s.1.2.toNat * fb.stride) s.2

/-- The place of a word, on the screen or to the right of it. -/
def place (i : ℕ) : ℤ × ℤ := ((i % fb.stride : ℕ), (i / fb.stride : ℕ))

/-- The screen. -/
def Shown (p : ℤ × ℤ) : Prop := (0 ≤ p.1 ∧ p.1 < fb.screenWidth) ∧ 0 ≤ p.2 ∧ p.2 < fb.screenHeight

instance (p : ℤ × ℤ) : Decidable (fb.Shown p) := inferInstanceAs (Decidable (_ ∧ _))

/-- The words after the strokes: on the screen the last stroke at a place is seen. -/
def painted (strokes : List Stroke) (pixels : List (BitVec 32)) : List (BitVec 32) :=
  pixels.mapIdx fun i w => if fb.Shown (fb.place i) then (paint strokes (fb.place i)).getD w else w

variable {fb} {pixels : List (BitVec 32)} {strokes : List Stroke}

theorem place_eq_iff {x y i : ℕ} (hx : x < fb.screenWidth) :
    fb.place i = ((x : ℤ), (y : ℤ)) ↔ i = x + y * fb.stride := by
  have hstride : x < fb.stride := hx.trans_le fb.width_le
  rw [place, Prod.mk.injEq, Nat.cast_inj, Nat.cast_inj]
  constructor
  · rintro ⟨rfl, rfl⟩
    rw [Nat.mul_comm, Nat.mod_add_div]
  · rintro rfl
    rw [Nat.add_mul_mod_self_right, Nat.mod_eq_of_lt hstride, Nat.add_mul_div_right _ _ (by omega),
      Nat.div_eq_of_lt hstride, Nat.zero_add]
    exact ⟨rfl, rfl⟩

theorem length_painted (strokes : List Stroke) (pixels : List (BitVec 32)) :
    (fb.painted strokes pixels).length = pixels.length := by simp [painted]

theorem getElem?_painted (strokes : List Stroke) (pixels : List (BitVec 32)) (i : ℕ) :
    (fb.painted strokes pixels)[i]? =
      pixels[i]?.map fun w => if fb.Shown (fb.place i) then (paint strokes (fb.place i)).getD w else w := by
  rw [painted, List.getElem?_mapIdx]

theorem painted_append (l m : List Stroke) (pixels : List (BitVec 32)) :
    fb.painted (l ++ m) pixels = fb.painted m (fb.painted l pixels) := by
  apply List.ext_getElem?
  intro i
  simp only [getElem?_painted, Option.map_map, paint_append]
  congr 1
  funext w
  by_cases hshown : fb.Shown (fb.place i)
  · cases paint m (fb.place i) <;> simp [hshown]
  · simp [hshown]

theorem painted_eq_self (h : ∀ p, fb.Shown p → paint strokes p = none) : fb.painted strokes pixels = pixels := by
  apply List.ext_getElem?
  intro i
  rw [getElem?_painted]
  by_cases hshown : fb.Shown (fb.place i)
  · simp [hshown, h _ hshown]
  · simp [hshown]

theorem set_eq_painted {x y : ℕ} (hx : x < fb.screenWidth) (hy : y < fb.screenHeight) (c : BitVec 32) :
    pixels.set (x + y * fb.stride) c = fb.painted [((x, y), c)] pixels := by
  apply List.ext_getElem?
  intro i
  rw [getElem?_painted, List.getElem?_set']
  by_cases hi : fb.place i = ((x : ℤ), (y : ℤ))
  · have hshown : fb.Shown ((x : ℤ), (y : ℤ)) := ⟨⟨by simp, Int.ofNat_lt.mpr hx⟩, by simp, Int.ofNat_lt.mpr hy⟩
    rw [hi, if_pos ((place_eq_iff hx).mp hi).symm]
    simp only [hshown, paint, if_true]
    rfl
  · rw [if_neg fun heq : _ = i => hi ((place_eq_iff hx).mpr heq.symm)]
    simp [paint, Ne.symm hi]

/-- Every call of `draw_pixel` keeps inside the buffer. -/
theorem drawPixel_eq (hsize : pixels.length = fb.size) (s : Stroke) :
    fb.drawPixel pixels s = .ok (fb.painted [s] pixels) := by
  obtain ⟨⟨x, y⟩, c⟩ := s
  unfold drawPixel
  dsimp only
  by_cases hshown : fb.Shown (x, y)
  · obtain ⟨⟨hx, hx'⟩, hy, hy'⟩ := hshown
    lift x to ℕ using hx
    lift y to ℕ using hy
    replace hx : x < fb.screenWidth := Int.ofNat_lt.mp hx'
    replace hy : y < fb.screenHeight := Int.ofNat_lt.mp hy'
    have hindex : x + y * fb.stride < pixels.length := by
      have hrow : (y + 1) * fb.stride ≤ fb.screenHeight * fb.stride := Nat.mul_le_mul_right _ hy
      have hwidth := fb.width_le
      rw [hsize, size]
      linarith
    rw [if_neg (by omega), if_neg (by omega), Int.toNat_natCast, Int.toNat_natCast, setAt, if_pos hindex,
      set_eq_painted hx hy]
  · have hself : fb.painted [((x, y), c)] pixels = pixels := by
      apply painted_eq_self
      intro p hp
      simp only [paint, Option.none_or]
      exact if_neg fun heq : (x, y) = p => hshown (heq ▸ hp)
    rw [hself]
    split_ifs with hneg hbig
    · rfl
    · rfl
    · exact (hshown ⟨⟨by omega, by omega⟩, by omega, by omega⟩).elim

theorem run_drawPixel (hsize : pixels.length = fb.size) (strokes : List Stroke) :
    run fb.drawPixel pixels strokes = .ok (fb.painted strokes pixels) := by
  induction strokes generalizing pixels with
  | nil => rw [run_nil, painted_eq_self fun _ _ => rfl]
  | cons s strokes ih =>
    rw [run_cons, drawPixel_eq hsize, Exec.ok_bind, ih (by rw [length_painted, hsize]), ← painted_append]
    rfl

/-- A small screen. -/
def small : Framebuffer := ⟨8, 6, 8, le_rfl⟩

end Framebuffer

/-! ### Drawings -/

/-- The calls of a primitive, or nothing where a loop needs more rounds than are counted. -/
abbrev Drawing := Exec (Option (List Stroke))

/-- `draw_pixel` at computed coordinates. -/
def pixel (x y : ℤ) (color : BitVec 32) : Exec Stroke := do .ok ((← int x, ← int y), color)

def plot (x y : ℤ) (color : BitVec 32) : Drawing := do .ok (some [← pixel x y color])

def Drawing.andThen (d e : Drawing) : Drawing := do
  match ← d with
  | none => .ok none
  | some l => (Option.map (l ++ ·)) <$> e

/-- One drawing after the other. -/
def inTurn : List Drawing → Drawing
  | [] => .ok (some [])
  | d :: ds => d.andThen (inTurn ds)

/-- `for (int i = first; i < last; i++)`. -/
def forLoop (first last : ℤ) (body : ℤ → Drawing) : Drawing :=
  inTurn ((List.range (last - first).toNat).map fun i : ℕ => body (first + i))

/-- What a drawing leaves in the buffer. -/
def Framebuffer.draw (fb : Framebuffer) (pixels : List (BitVec 32)) (d : Drawing) :
    Exec (Option (List (BitVec 32))) := do
  match ← d with
  | none => .ok none
  | some strokes => some <$> run fb.drawPixel pixels strokes

def fillRectangle (x y width height : ℤ) (color : BitVec 32) : Drawing :=
  forLoop 0 height fun j => forLoop 0 width fun i => plot (x + i) (y + j) color

def drawHline (x y length : ℤ) (color : BitVec 32) : Drawing := forLoop 0 length fun i => plot (x + i) y color

def drawVline (x y length : ℤ) (color : BitVec 32) : Drawing := forLoop 0 length fun i => plot x (y + i) color

/-- The four edges, each `thickness` deep. -/
def drawRectOutline (x y width height : ℤ) (color : BitVec 32) (thickness : ℤ) : Drawing :=
  inTurn
    [forLoop 0 thickness fun t => forLoop 0 width fun i => plot (x + i) (y + t) color,
      forLoop 0 thickness fun t => forLoop 0 width fun i => do
        plot (x + i) ((← int ((← int (y + height)) - 1)) - t) color,
      forLoop 0 thickness fun t => forLoop 0 height fun j => plot (x + t) (y + j) color,
      forLoop 0 thickness fun t => forLoop 0 height fun j => do
        plot ((← int ((← int (x + width)) - 1)) - t) (y + j) color]

section Rules
variable {d e : Drawing} {S T : Set (ℤ × ℤ)} {color : BitVec 32} {x y width height : ℤ}

/-- A drawing that draws one shape in one colour. -/
def Draws (d : Drawing) (S : Set (ℤ × ℤ)) (color : BitVec 32) : Prop := ∃ l, d = .ok (some l) ∧ Fills l S color

/-- Exactly the pixels of a shape that are on the screen have got the colour. -/
structure Framebuffer.Coloured (fb : Framebuffer) (pixels pixels' : List (BitVec 32)) (S : Set (ℤ × ℤ))
    (color : BitVec 32) : Prop where
  length : pixels'.length = pixels.length
  inside : ∀ i < pixels.length, fb.Shown (fb.place i) → fb.place i ∈ S → pixels'[i]? = some color
  outside : ∀ i, ¬(fb.Shown (fb.place i) ∧ fb.place i ∈ S) → pixels'[i]? = pixels[i]?

theorem Draws.coloured {fb : Framebuffer} {pixels : List (BitVec 32)} (h : Draws d S color)
    (hsize : pixels.length = fb.size) :
    ∃ pixels', fb.draw pixels d = .ok (some pixels') ∧ fb.Coloured pixels pixels' S color := by
  obtain ⟨l, rfl, hl⟩ := h
  refine ⟨fb.painted l pixels, ?_, fb.length_painted l pixels, ?_, ?_⟩
  · unfold Framebuffer.draw
    rw [Exec.ok_bind]
    dsimp only
    rw [Framebuffer.run_drawPixel hsize]
    rfl
  · intro i hi hshown hS
    simp [Framebuffer.getElem?_painted, hshown, hl.paint_of_mem hS, hi]
  · intro i hnot
    rw [Framebuffer.getElem?_painted]
    by_cases hshown : fb.Shown (fb.place i)
    · simp [hl.paint_of_notMem fun hS => hnot ⟨hshown, hS⟩]
    · simp [hshown]

theorem Draws.congr (h : Draws d S color) (hST : ∀ p, p ∈ S ↔ p ∈ T) : Draws d T color := by
  obtain ⟨l, hl, hfills⟩ := h
  exact ⟨l, hl, hfills.congr hST⟩

theorem draws_inTurn_nil : Draws (inTurn []) ∅ color := ⟨[], rfl, by simp [Fills]⟩

theorem draws_inTurn_cons {ds : List Drawing} (hd : Draws d S color) (hds : Draws (inTurn ds) T color) :
    Draws (inTurn (d :: ds)) (S ∪ T) color := by
  obtain ⟨l, rfl, hl⟩ := hd
  obtain ⟨m, hm, hfills⟩ := hds
  refine ⟨l ++ m, ?_, hl.append hfills⟩
  rw [inTurn, hm]
  rfl

theorem draws_inTurn_map {ι : Type} {is : List ι} {body : ι → Drawing} {S : ι → Set (ℤ × ℤ)}
    (h : ∀ i ∈ is, Draws (body i) (S i) color) : Draws (inTurn (is.map body)) {p | ∃ i ∈ is, p ∈ S i} color := by
  induction is with
  | nil => exact draws_inTurn_nil.congr (by simp)
  | cons i is ih =>
    rw [List.forall_mem_cons] at h
    exact (draws_inTurn_cons h.1 (ih h.2)).congr (by simp)

theorem draws_forLoop {first last : ℤ} {body : ℤ → Drawing} {S : ℤ → Set (ℤ × ℤ)}
    (h : ∀ i, first ≤ i → i < last → Draws (body i) (S i) color) :
    Draws (forLoop first last body) {p | ∃ i, first ≤ i ∧ i < last ∧ p ∈ S i} color := by
  have hbodies : ∀ i ∈ List.range (last - first).toNat, Draws (body (first + i)) (S (first + i)) color := by
    intro i hi
    rw [List.mem_range] at hi
    exact h _ (by omega) (by omega)
  refine Draws.congr (draws_inTurn_map hbodies) fun p => ?_
  constructor
  · rintro ⟨i, hi, hp⟩
    rw [List.mem_range] at hi
    exact ⟨first + i, by omega, by omega, hp⟩
  · rintro ⟨i, hfirst, hlast, hp⟩
    refine ⟨(i - first).toNat, List.mem_range.mpr (by omega), ?_⟩
    rwa [Int.toNat_of_nonneg (by omega), add_sub_cancel]

theorem forLoop_congr {first last : ℤ} {body body' : ℤ → Drawing} (h : ∀ i, first ≤ i → i < last → body i = body' i) :
    forLoop first last body = forLoop first last body' := by
  unfold forLoop
  congr 1
  apply List.map_congr_left
  intro i hi
  rw [List.mem_range] at hi
  exact h _ (by omega) (by omega)

theorem plot_eq (hx : InInt x) (hy : InInt y) : plot x y color = .ok (some [((x, y), color)]) := by
  rw [plot, pixel, int_of_inInt hx, int_of_inInt hy]
  rfl

theorem draws_plot (hx : InInt x) (hy : InInt y) : Draws (plot x y color) {(x, y)} color :=
  ⟨_, plot_eq hx hy, by simp [Fills, eq_comm]⟩

/-- A rectangle: its left and top edges belong to it, its right and bottom edges do not. -/
def rectangle (x y width height : ℤ) : Set (ℤ × ℤ) :=
  {p | (x ≤ p.1 ∧ p.1 < x + width) ∧ y ≤ p.2 ∧ p.2 < y + height}

theorem mem_rectangle {px py : ℤ} (hx : x ≤ px) (hx' : px < x + width) (hy : y ≤ py) (hy' : py < y + height) :
    (px, py) ∈ rectangle x y width height := ⟨⟨hx, hx'⟩, hy, hy'⟩

/-- The corners of a rectangle are numbers of the machine. -/
structure Fits (x y width height : ℤ) : Prop where
  left : InInt x
  top : InInt y
  right : InInt (x + width)
  bottom : InInt (y + height)

theorem inInt_between {a b c : ℤ} (ha : InInt a) (hc : InInt c) (hab : a ≤ b) (hbc : b ≤ c) : InInt b :=
  ⟨ha.1.trans hab, hbc.trans_lt hc.2⟩

/-- Two loops, one in the other. -/
theorem draws_grid {m n : ℤ} {f g : ℤ → ℤ → ℤ}
    (h : ∀ j i, 0 ≤ j → j < m → 0 ≤ i → i < n → InInt (f j i) ∧ InInt (g j i)) :
    Draws (forLoop 0 m fun j => forLoop 0 n fun i => plot (f j i) (g j i) color)
      {p | ∃ j i, (0 ≤ j ∧ j < m) ∧ (0 ≤ i ∧ i < n) ∧ f j i = p.1 ∧ g j i = p.2} color := by
  have hrow : ∀ j, 0 ≤ j → j < m → Draws (forLoop 0 n fun i => plot (f j i) (g j i) color)
      {p | ∃ i, 0 ≤ i ∧ i < n ∧ p ∈ ({(f j i, g j i)} : Set (ℤ × ℤ))} color :=
    fun j hj hj' => draws_forLoop fun i hi hi' => draws_plot (h j i hj hj' hi hi').1 (h j i hj hj' hi hi').2
  apply (draws_forLoop hrow).congr
  rintro ⟨px, py⟩
  constructor
  · rintro ⟨j, hj, hj', i, hi, hi', hp⟩
    obtain ⟨rfl, rfl⟩ := Prod.mk.inj hp
    exact ⟨j, i, ⟨hj, hj'⟩, ⟨hi, hi'⟩, rfl, rfl⟩
  · rintro ⟨j, i, ⟨hj, hj'⟩, ⟨hi, hi'⟩, hx, hy⟩
    exact ⟨j, hj, hj', i, hi, hi', Prod.ext hx.symm hy.symm⟩

theorem draws_fillRectangle (h : Fits x y width height) :
    Draws (fillRectangle x y width height color) (rectangle x y width height) color := by
  have hgrid : ∀ j i, 0 ≤ j → j < height → 0 ≤ i → i < width → InInt (x + i) ∧ InInt (y + j) := by
    intro j i hj hj' hi hi'
    exact ⟨inInt_between h.left h.right (by omega) (by omega), inInt_between h.top h.bottom (by omega) (by omega)⟩
  apply (draws_grid hgrid).congr
  rintro ⟨px, py⟩
  constructor
  · rintro ⟨j, i, hj, hi, hx, hy⟩
    dsimp only at hx hy
    exact mem_rectangle (by omega) (by omega) (by omega) (by omega)
  · rintro ⟨hx, hy⟩
    dsimp only at hx hy
    exact ⟨py - y, px - x, by omega, by omega, by simp, by simp⟩

/-- The edges of a rectangle: what is left when `thickness` is taken away on every side. -/
def outline (x y width height thickness : ℤ) : Set (ℤ × ℤ) :=
  rectangle x y width height \
    rectangle (x + thickness) (y + thickness) (width - 2 * thickness) (height - 2 * thickness)

theorem draws_drawRectOutline {thickness : ℤ} (h : Fits x y width height) (hwidth : thickness ≤ width)
    (hheight : thickness ≤ height) :
    Draws (drawRectOutline x y width height color thickness) (outline x y width height thickness) color := by
  have hx : ∀ i, 0 ≤ i → i < width → InInt (x + i) :=
    fun i hi hi' => inInt_between h.left h.right (by omega) (by omega)
  have hy : ∀ j, 0 ≤ j → j < height → InInt (y + j) :=
    fun j hj hj' => inInt_between h.top h.bottom (by omega) (by omega)
  have htop := @draws_grid color thickness width (fun _ i => x + i) (fun t _ => y + t)
    fun t i ht ht' hi hi' => ⟨hx i hi hi', hy t ht (by omega)⟩
  have hbottom := @draws_grid color thickness width (fun _ i => x + i) (fun t _ => y + height - 1 - t)
    fun t i ht ht' hi hi' => ⟨hx i hi hi', inInt_between h.top h.bottom (by omega) (by omega)⟩
  have hleft := @draws_grid color thickness height (fun t _ => x + t) (fun _ j => y + j)
    fun t j ht ht' hj hj' => ⟨hx t ht (by omega), hy j hj hj'⟩
  have hright := @draws_grid color thickness height (fun t _ => x + width - 1 - t) (fun _ j => y + j)
    fun t j ht ht' hj hj' => ⟨inInt_between h.left h.right (by omega) (by omega), hy j hj hj'⟩
  have hbottomEq : ∀ t, 0 ≤ t → t < thickness →
      (forLoop 0 width fun i => do plot (x + i) ((← int ((← int (y + height)) - 1)) - t) color) =
        forLoop 0 width fun i => plot (x + i) (y + height - 1 - t) color := by
    intro t ht ht'
    have hlast : InInt (y + height - 1) := inInt_between h.top h.bottom (by omega) (by omega)
    simp only [int_of_inInt h.bottom, int_of_inInt hlast, Exec.ok_bind]
  have hrightEq : ∀ t, 0 ≤ t → t < thickness →
      (forLoop 0 height fun j => do plot ((← int ((← int (x + width)) - 1)) - t) (y + j) color) =
        forLoop 0 height fun j => plot (x + width - 1 - t) (y + j) color := by
    intro t ht ht'
    have hlast : InInt (x + width - 1) := inInt_between h.left h.right (by omega) (by omega)
    simp only [int_of_inInt h.right, int_of_inInt hlast, Exec.ok_bind]
  rw [← forLoop_congr hbottomEq] at hbottom
  rw [← forLoop_congr hrightEq] at hright
  apply (draws_inTurn_cons htop (draws_inTurn_cons hbottom (draws_inTurn_cons hleft
    (draws_inTurn_cons hright draws_inTurn_nil)))).congr
  rintro ⟨px, py⟩
  simp only [Set.mem_union, Set.mem_ofPred_eq, Set.mem_empty_iff_false, or_false, outline, rectangle, Set.mem_sdiff]
  constructor
  · rintro (⟨t, i, ht, hi, rfl, rfl⟩ | ⟨t, i, ht, hi, rfl, rfl⟩ | ⟨t, j, ht, hj, rfl, rfl⟩ | ⟨t, j, ht, hj, rfl, rfl⟩)
    all_goals omega
  · rintro ⟨⟨hpx, hpy⟩, hout⟩
    by_cases htopEdge : py < y + thickness
    · exact .inl ⟨py - y, px - x, by omega, by omega, by omega, by omega⟩
    by_cases hbottomEdge : y + height - thickness ≤ py
    · exact .inr (.inl ⟨y + height - 1 - py, px - x, by omega, by omega, by omega, by omega⟩)
    by_cases hleftEdge : px < x + thickness
    · exact .inr (.inr (.inl ⟨px - x, py - y, by omega, by omega, by omega, by omega⟩))
    · exact .inr (.inr (.inr ⟨x + width - 1 - px, py - y, by omega, by omega, by omega, by omega⟩))

end Rules

end DualFuse.Gui
