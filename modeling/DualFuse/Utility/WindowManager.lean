import DualFuse.Library.Execution
import DualFuse.Utility.Words

/-! The window manager (`utility/window_manager.cpp`). Its array holds pointers to windows, and the
searches and comparisons read the array itself as windows, with the layout that a window has
in memory. The size of a frame buffer, whose declaration is in another repository, is a
parameter; it holds a pointer, so a window is a number of whole words. -/

namespace DualFuse.Utility.WindowManager

open Library

def maxNumberOfWindows : ℕ := 64

def insertionThreshold : ℕ := 10

structure Window where
  title : UInt64
  layer : ℤ

/-- The live windows by address, and the characters. `frame` is the address of the local variable
that the functions point the array to: no window is alive there once they have returned. -/
structure Memory where
  bufferWords : ℕ
  charAt : UInt64 → Exec ℤ
  window : UInt64 → Option Window
  frame : UInt64
  dead : window frame = none

namespace Memory

/-- `sizeof(window)` in words: the title, the frame buffer, and the layer with `is_valid`. -/
def windowWords (m : Memory) : ℕ := m.bufferWords + 2

/-- `compare_windows`. -/
def compareWindows (m : Memory) (a b : Window) : Exec ℤ :=
  if a.layer ≠ b.layer then .ok (wrapInt (a.layer - b.layer))
  else do
    let c ← m.charAt a.title
    let d ← m.charAt b.title
    .ok (c - d)

def deref (m : Memory) (p : UInt64) : Exec Window :=
  match m.window p with
  | some w => .ok w
  | none => .error .fault

end Memory

/-- The windows are in the order of `compare_windows`. -/
def Ordered (m : Memory) (windows : List Window) : Prop :=
  windows.Pairwise fun a b => ∃ c ≤ 0, m.compareWindows a b = .ok c

/-- `window* arr[64]`, of which `count` pointers are in use. -/
structure Slots where
  count : ℕ
  arr : ℕ → UInt64

namespace Slots

/-- The pointers in use. -/
def pointers (s : Slots) : List UInt64 := (List.range s.count).map s.arr

def get (s : Slots) (i : ℕ) : Exec UInt64 :=
  if i < maxNumberOfWindows then .ok (s.arr i) else .error .fault

def put (s : Slots) (i : ℕ) (p : UInt64) : Exec Slots :=
  if i < maxNumberOfWindows then .ok { s with arr := Function.update s.arr i p } else .error .fault

/-- The window read from the words of the array at `word`: nothing is there behind the pointers in
use. The layer is the lower half of its last word. -/
def windowAt (m : Memory) (s : Slots) (word : ℕ) : Exec Window :=
  if word + m.windowWords ≤ s.count then
    .ok ⟨s.arr word, ((s.arr (word + m.bufferWords + 1)).toBitVec.setWidth 32).toInt⟩
  else .error .fault

/-- Two windows of `size` words change places. -/
def exchange (arr : ℕ → UInt64) (size i j k : ℕ) : UInt64 :=
  if k / size = i then arr (j * size + k % size)
  else if k / size = j then arr (i * size + k % size)
  else arr k

/-- The three assignments of a swap. -/
def swap (m : Memory) (s : Slots) (i j : ℕ) : Exec Slots :=
  if (i + 1) * m.windowWords ≤ s.count ∧ (j + 1) * m.windowWords ≤ s.count then
    .ok { s with arr := exchange s.arr m.windowWords i j }
  else .error .fault

/-! ### Sorting -/

section Sorting
variable (m : Memory)

/-- The loop of `partition` from `i` on, with `n` windows up to `gt`. The pivot is a reference to
the window at `low`. The results are `lt`, `gt` and the array. -/
def partitionFrom (low : ℕ) : ℕ → ℕ → ℕ → Slots → Exec (ℕ × ℕ × Slots)
  | 0, i, lt, s => .ok (lt, i - 1, s)
  | n + 1, i, lt, s => do
    let gt := i + n
    let cmp ← m.compareWindows (← s.windowAt m (i * m.windowWords)) (← s.windowAt m (low * m.windowWords))
    if cmp < 0 then partitionFrom low n (i + 1) (lt + 1) (← s.swap m lt i)
    else if cmp > 0 then partitionFrom low n i lt (← s.swap m i gt)
    else partitionFrom low n (i + 1) lt s

def partition (low high : ℕ) (s : Slots) : Exec (ℕ × ℕ × Slots) :=
  partitionFrom m low (high - low) (low + 1) low s

/-- The inner loop of the insertion sort with `n` slots before the free one, and the store of
`&key`. The slot, not the window it points to, is compared. -/
def shiftKey (key : Window) (low : ℕ) : ℕ → Slots → Exec Slots
  | 0, s => s.put low m.frame
  | n + 1, s => do
    let cmp ← m.compareWindows (← s.windowAt m (low + n)) key
    if cmp > 0 then shiftKey key low n (← s.put (low + n + 1) (← s.get (low + n)))
    else s.put (low + n + 1) m.frame

/-- One iteration of the insertion sort. -/
def insertKey (low : ℕ) (s : Slots) (i : ℕ) : Exec Slots := do
  let key ← m.deref (← s.get i)
  shiftKey m key low (i - low) s

/-- The first argument is the number of windows in the range, which is smaller in every call. -/
def quicksort : ℕ → ℕ → ℕ → Slots → Exec Slots
  | 0, _, _, s => .ok s
  | size + 1, low, high, s =>
    if low < high then
      if high - low + 1 ≤ insertionThreshold then run (insertKey m low) s (List.range' (low + 1) (high - low))
      else do
        let (lt, gt, s) ← partition m low high s
        if lt - low < high - gt then do
          quicksort size (gt + 1) high (← quicksort size low (lt - 1) s)
        else do
          quicksort size low (lt - 1) (← quicksort size (gt + 1) high s)
    else .ok s

def sortWindows (s : Slots) : Exec Slots :=
  if s.count ≤ 1 then .ok s else quicksort m s.count 0 (s.count - 1) s

end Sorting

/-- What sorting is for. -/
structure Sorts (m : Memory) (before after : Slots) : Prop where
  perm : after.pointers.Perm before.pointers
  live : ∀ p ∈ after.pointers, m.window p ≠ none
  ordered : Ordered m (after.pointers.filterMap m.window)

section Partition
variable {m : Memory} {s s' : Slots} {word i j : ℕ}

theorem windowAt_ok {w : Window} (h : s.windowAt m word = .ok w) : word + m.windowWords ≤ s.count := by
  unfold windowAt at h
  split_ifs at h with hin
  exact hin

theorem swap_ok (h : s.swap m i j = .ok s') : s'.count = s.count ∧ (j + 1) * m.windowWords ≤ s.count := by
  unfold swap at h
  split_ifs at h with hin
  cases h
  exact ⟨rfl, hin.2⟩

/-- The loop comes to the last window of its range, so a range that leaves the array stops it. -/
theorem partitionFrom_not_ok {low lt n : ℕ} {r : ℕ × ℕ × Slots} (hout : s.count < (i + n + 1) * m.windowWords) :
    partitionFrom m low (n + 1) i lt s ≠ .ok r := by
  intro h
  induction n generalizing i lt s with
  | zero =>
    simp only [partitionFrom, Exec.bind_ok_iff] at h
    obtain ⟨w, hw, -⟩ := h
    have := windowAt_ok hw
    rw [Nat.add_zero, Nat.succ_mul] at hout
    omega
  | succ n ih =>
    rw [partitionFrom] at h
    simp only [Exec.bind_ok_iff] at h
    obtain ⟨w, -, p, -, cmp, -, h⟩ := h
    have hnext : i + 1 + n + 1 = i + (n + 1) + 1 := by omega
    split_ifs at h with hlt hgt
    · obtain ⟨t, ht, h⟩ := Exec.bind_ok_iff.mp h
      exact ih (by rw [(swap_ok ht).1, hnext]; exact hout) h
    · obtain ⟨t, ht, -⟩ := Exec.bind_ok_iff.mp h
      have := (swap_ok ht).2
      omega
    · exact ih (by rw [hnext]; exact hout) h

end Partition

section Insertion
variable {m : Memory} {s s' : Slots}

theorem put_ok {i : ℕ} {p : UInt64} (h : s.put i p = .ok s') : s' = { s with arr := Function.update s.arr i p } := by
  unfold put at h
  split_ifs at h
  exact (Except.ok.inj h).symm

/-- An iteration leaves the address of its local variable in a slot. -/
theorem shiftKey_frame {key : Window} {low n : ℕ} (h : shiftKey m key low n s = .ok s') :
    s'.count = s.count ∧ ∃ k ≤ low + n, s'.arr k = m.frame := by
  induction n generalizing s with
  | zero =>
    cases put_ok h
    exact ⟨rfl, low, le_rfl, Function.update_self ..⟩
  | succ n ih =>
    simp only [shiftKey, Exec.bind_ok_iff] at h
    obtain ⟨w, -, cmp, -, h⟩ := h
    split_ifs at h with hcmp
    · simp only [Exec.bind_ok_iff] at h
      obtain ⟨p, -, t, ht, h⟩ := h
      obtain ⟨hcount, k, hk, hframe⟩ := ih h
      cases put_ok ht
      exact ⟨hcount, k, by omega, hframe⟩
    · cases put_ok h
      exact ⟨rfl, _, le_rfl, Function.update_self ..⟩

theorem insertKey_frame {low i : ℕ} (h : insertKey m low s i = .ok s') :
    s'.count = s.count ∧ ∃ k ≤ low + (i - low), s'.arr k = m.frame := by
  simp only [insertKey, Exec.bind_ok_iff] at h
  obtain ⟨p, -, key, -, h⟩ := h
  exact shiftKey_frame h

theorem run_insertKey_frame {low n : ℕ} (h : run (insertKey m low) s (List.range' (low + 1) (n + 1)) = .ok s') :
    s'.count = s.count ∧ ∃ k ≤ low + 1 + n, s'.arr k = m.frame := by
  rw [List.range'_concat, Nat.one_mul, run_append, Exec.bind_ok_iff] at h
  obtain ⟨t, ht, hlast⟩ := h
  rw [run_cons, Exec.bind_ok_iff] at hlast
  obtain ⟨u, hu, hlast⟩ := hlast
  cases hlast
  have hstep : ∀ t i t', t.count = s.count → insertKey m low t i = .ok t' → t'.count = s.count :=
    fun _ _ _ ht hkey => (insertKey_frame hkey).1.trans ht
  have hcount : t.count = s.count := run_invariant hstep rfl ht
  obtain ⟨hu, k, hk, hframe⟩ := insertKey_frame hu
  exact ⟨hu.trans hcount, k, by omega, hframe⟩

end Insertion

section Sorts
variable {m : Memory} {s s' : Slots}

/-- A slot in use that holds the address of the local variable. -/
theorem not_live_of_frame (h : ∃ k < s.count, s.arr k = m.frame) : ¬∀ p ∈ s.pointers, m.window p ≠ none := by
  obtain ⟨k, hk, hframe⟩ := h
  intro hlive
  exact hlive m.frame (List.mem_map.mpr ⟨k, List.mem_range.mpr hk, hframe⟩) m.dead

theorem sorts_of_le_one (hlive : ∀ p ∈ s.pointers, m.window p ≠ none) (h : s.count ≤ 1) : Sorts m s s where
  perm := .refl _
  live := hlive
  ordered := by
    have hlength : (s.pointers.filterMap m.window).length ≤ 1 :=
      (List.length_filterMap_le _ _).trans (by simpa [pointers] using h)
    match hlist : s.pointers.filterMap m.window with
    | [] => exact .nil
    | [w] => exact List.pairwise_singleton _ w
    | a :: b :: l => simp [hlist] at hlength

/-- With two windows or more sorting reads behind the array or leaves a slot without a window. -/
theorem not_sorts (h : 1 < s.count) : ¬∃ s', sortWindows m s = .ok s' ∧ Sorts m s s' := by
  rintro ⟨s', hs', hsorts⟩
  obtain ⟨n, hn⟩ : ∃ n, s.count = n + 2 := ⟨s.count - 2, by omega⟩
  rw [sortWindows, if_neg (by omega), hn, quicksort, if_pos (by omega)] at hs'
  simp only [Nat.add_one_sub_one, Nat.sub_zero] at hs'
  split_ifs at hs' with hsize
  · obtain ⟨hcount, k, hk, hframe⟩ := run_insertKey_frame hs'
    exact not_live_of_frame ⟨k, by omega, hframe⟩ hsorts.live
  · obtain ⟨r, hr, -⟩ := Exec.bind_ok_iff.mp hs'
    refine partitionFrom_not_ok ?_ hr
    rw [hn, Memory.windowWords, show 0 + 1 + n + 1 = n + 2 by omega]
    exact lt_mul_of_one_lt_right (by omega) (by omega)

/-- Sorting is right exactly where there is nothing to sort. -/
theorem sortWindows_right_iff (hlive : ∀ p ∈ s.pointers, m.window p ≠ none) :
    (∃ s', sortWindows m s = .ok s' ∧ Sorts m s s') ↔ s.count ≤ 1 := by
  constructor
  · intro h
    by_contra hcount
    exact not_sorts (by omega) h
  · exact fun h => ⟨s, if_pos h, sorts_of_le_one hlive h⟩

end Sorts

end Slots

/-- Two windows with titles at `0x3000` and `0x4000`, and frame buffers of three words. -/
def twoWindows : Memory where
  bufferWords := 3
  charAt p := .ok (if p = 0x3000 then 97 else 98)
  window p := if p = 0x1000 then some ⟨0x3000, 0⟩ else if p = 0x2000 then some ⟨0x4000, 1⟩ else none
  frame := 0x9000
  dead := rfl

theorem one_window_sorted : ∃ s', Slots.sortWindows twoWindows ⟨1, fun _ => 0x1000⟩ = .ok s' ∧
    Slots.Sorts twoWindows ⟨1, fun _ => 0x1000⟩ s' := by
  apply (Slots.sortWindows_right_iff ?_).mpr (le_refl 1)
  intro p hp
  obtain rfl : p = 0x1000 := List.mem_singleton.mp hp
  decide

def twoSlots : Slots := ⟨2, fun i => if i = 0 then 0x1000 else 0x2000⟩

/-- Two windows that are in order already are not sorted. -/
theorem two_windows_not_sorted :
    ¬∃ s', Slots.sortWindows twoWindows twoSlots = .ok s' ∧ Slots.Sorts twoWindows twoSlots s' :=
  Slots.not_sorts (by decide)

/-! ### Requests -/

namespace Slots

section Insert
variable (m : Memory)

/-- The first argument is the number of windows between `left` and `right`. -/
def binarySearchFrom (item : Window) (s : Slots) : ℕ → ℕ → ℕ → Exec ℕ
  | 0, left, _ => .ok left
  | size + 1, left, right =>
    if left < right then do
      let mid := left + (right - left) / 2
      let cmp ← m.compareWindows (← s.windowAt m (mid * m.windowWords)) item
      if cmp < 0 then binarySearchFrom item s size (mid + 1) right else binarySearchFrom item s size left mid
    else .ok left

def binarySearchInsert (item : Window) (s : Slots) : Exec ℕ := binarySearchFrom m item s s.count 0 s.count

/-- `n` pointers before slot `pos + n` move up by one. -/
def shiftUp (pos : ℕ) : ℕ → Slots → Exec Slots
  | 0, s => .ok s
  | n + 1, s => do shiftUp pos n (← s.put (pos + n + 1) (← s.get (pos + n)))

/-- The array and the position of the new window. -/
def insertWindow (item : Window) (s : Slots) : Exec (Slots × ℤ) := do
  if s.count ≥ maxNumberOfWindows then .ok (s, -1)
  else
    let pos ← s.binarySearchInsert m item
    let s ← s.shiftUp pos (s.count - pos)
    let s ← s.put pos m.frame
    .ok ({ s with count := s.count + 1 }, pos)

def requestWindow (title : UInt64) (layer : ℤ) (s : Slots) : Exec (Slots × ℤ) :=
  if s.count ≥ maxNumberOfWindows ∨ title = 0 then .ok (s, -1) else s.insertWindow m ⟨title, layer⟩

end Insert

end Slots

structure Request where
  title : UInt64
  layer : ℤ

/-- The array, the windows that were requested, and the last of them with its position. -/
structure State where
  slots : Slots
  requested : List Window
  placed : Option (ℤ × Window)

def State.start (arr : ℕ → UInt64) : State := ⟨⟨0, arr⟩, [], none⟩

/-- One call of `request_window`. A request that gets no position is not one of the windows. -/
def step (m : Memory) (s : State) (o : Request) : Exec State := do
  let (slots, pos) ← s.slots.requestWindow m o.title o.layer
  if pos < 0 then .ok ⟨slots, s.requested, none⟩
  else .ok ⟨slots, ⟨o.title, o.layer⟩ :: s.requested, some (pos, ⟨o.title, o.layer⟩)⟩

/-- The array holds the requested windows in order, and a new window is at its position, before
the windows that are equal to it. -/
structure Sound (m : Memory) (s : State) : Prop where
  capacity : s.slots.count ≤ maxNumberOfWindows
  contents : ∃ windows : List Window, s.slots.pointers.map m.window = windows.map some ∧
    windows.Perm s.requested ∧ Ordered m windows ∧
      ∀ pos w, s.placed = some (pos, w) → 0 ≤ pos ∧ windows[pos.toNat]? = some w ∧
        ∀ a ∈ windows.take pos.toNat, ∃ c < 0, m.compareWindows a w = .ok c

section Requests
variable {m : Memory} {arr : ℕ → UInt64}

theorem start_sound : Sound m (.start arr) where
  capacity := Nat.zero_le _
  contents := ⟨[], rfl, .nil, .nil, fun _ _ h => absurd h (Option.some_ne_none _).symm⟩

/-- A request without a title changes nothing. -/
theorem step_start_null {o : Request} (h : o.title = 0) : step m (.start arr) o = .ok (.start arr) := by
  simp [step, Slots.requestWindow, State.start, h]

/-- The first window is stored as the address of the local variable. -/
theorem step_start {o : Request} (h : o.title ≠ 0) :
    step m (.start arr) o =
      .ok ⟨⟨1, Function.update arr 0 m.frame⟩, [⟨o.title, o.layer⟩], some (0, ⟨o.title, o.layer⟩)⟩ := by
  have hinsert : ∀ item, (Slots.mk 0 arr).insertWindow m item = .ok (⟨1, Function.update arr 0 m.frame⟩, 0) :=
    fun _ => rfl
  simp [step, Slots.requestWindow, State.start, maxNumberOfWindows, h, hinsert]

theorem not_sound_step {o : Request} (h : o.title ≠ 0) :
    ¬Exec.Meets (fun _ => False) (Sound m) (step m (.start arr) o) := by
  rw [step_start h]
  intro hsound
  obtain ⟨windows, hmap, -⟩ := hsound.contents
  have hfirst : none ∈ windows.map some := by
    rw [← hmap]
    simp [Slots.pointers, m.dead]
  simp at hfirst

/-- The array holds the requested windows throughout a run exactly when no window is requested. -/
theorem requests_sound_iff (m : Memory) (arr : ℕ → UInt64) (ops : List Request) :
    Throughout (step m) (fun _ => False) (Sound m) (.start arr) ops ↔ ∀ o ∈ ops, o.title = 0 := by
  induction ops with
  | nil =>
    refine iff_of_true (fun done todo heq => ?_) (by simp)
    obtain ⟨rfl, -⟩ := List.append_eq_nil_iff.mp heq.symm
    exact start_sound
  | cons o ops ih =>
    rw [List.forall_mem_cons]
    constructor
    · intro h
      have ho : o.title = 0 := by
        by_contra hne
        have hfirst := h [o] ops rfl
        rw [run_cons, step_start hne] at hfirst
        exact not_sound_step hne (by rwa [step_start hne])
      exact ⟨ho, ih.mp (h.tail (step_start_null ho))⟩
    · rintro ⟨ho, hops⟩ done todo heq
      cases done with
      | nil => exact start_sound
      | cons o' done =>
        obtain ⟨rfl, hops'⟩ := List.cons_eq_cons.mp heq
        rw [run_cons, step_start_null ho, Exec.ok_bind]
        exact ih.mpr hops done todo hops'

/-- After the first window was requested the array holds the address of no window. -/
theorem first_window_lost : ¬Throughout (step twoWindows) (fun _ => False) (Sound twoWindows) (.start fun _ => 0)
    [⟨0x3000, 0⟩] := by
  intro h
  have hfirst := h [⟨0x3000, 0⟩] [] rfl
  rw [run_cons, step_start (by decide)] at hfirst
  exact not_sound_step (o := ⟨0x3000, 0⟩) (by decide) (by rwa [step_start (by decide)])

end Requests

end DualFuse.Utility.WindowManager
