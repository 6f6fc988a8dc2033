import Mathlib.Tactic

/-! First-fit search for a run of consecutive free places. A single pass keeps
the start and the length of the free run that ends at the current place and
stops when it is long enough. The pass returns the least start of a run of the
requested length, and nothing exactly when there is no such run. -/

namespace DualFuse.Library.FirstRun

/-- `b` free places from `s` on, all below `N`. -/
def IsRun (free : ℕ → Bool) (N b s : ℕ) : Prop := s + b ≤ N ∧ ∀ k < b, free (s + k) = true

/-- One pass over `n` places from `i`; `size` places from `start` are known free. -/
def scan (free : ℕ → Bool) (b : ℕ) : (n i start size : ℕ) → Option ℕ
  | 0, _, _, _ => none
  | n + 1, i, start, size =>
    if free i then
      if b ≤ size + 1 then some start else scan free b n (i + 1) start (size + 1)
    else scan free b n (i + 1) (i + 1) 0

/-- The specification of a search result. -/
def Finds (free : ℕ → Bool) (N b : ℕ) : Option ℕ → Prop
  | some s => IsLeast {s | IsRun free N b s} s
  | none => ∀ s, ¬IsRun free N b s

variable {free : ℕ → Bool} {N b : ℕ}

theorem finds_unique {r r' : Option ℕ} (h : Finds free N b r) (h' : Finds free N b r') : r = r' := by
  rcases r with _ | s <;> rcases r' with _ | s'
  · rfl
  · exact absurd h'.1 (h s')
  · exact absurd h.1 (h' s)
  · rw [IsLeast.unique h h']

/-- The pass is correct from any position whose prefix holds no run start below
the start of the current free run. -/
theorem scan_finds (n i start size : ℕ) (hN : i + n = N) (hi : i = start + size) (hsize : size < b)
    (hfree : ∀ k < size, free (start + k) = true)
    (hbelow : ∀ s < start, ¬IsRun free N b s) : Finds free N b (scan free b n i start size) := by
  induction n generalizing i start size with
  | zero =>
    intro s hs
    rcases lt_or_ge s start with h | h
    · exact hbelow s h hs
    · have := hs.1; omega
  | succ n ih =>
    simp only [scan]
    split_ifs with hf hb
    · refine ⟨⟨by omega, fun k hk => ?_⟩, fun t ht => not_lt.mp fun h => hbelow t h ht⟩
      rcases Nat.lt_or_ge k size with h | h
      · exact hfree k h
      · rw [show start + k = i by omega]; exact hf
    · refine ih (i + 1) start (size + 1) (by omega) (by omega) (by omega) (fun k hk => ?_) hbelow
      rcases Nat.lt_or_ge k size with h | h
      · exact hfree k h
      · rw [show start + k = i by omega]; exact hf
    · refine ih (i + 1) (i + 1) 0 (by omega) (by omega) (by omega) (by simp) ?_
      -- a run that starts at or below the used place `i` would contain it
      intro s hs hrun
      rcases lt_or_ge s start with h | h
      · exact hbelow s h hrun
      · exact hf (by simpa [show s + (i - s) = i by omega] using hrun.2 (i - s) (by omega))

/-- What a pass returns is a run, also when it is asked for no places: then it is one. -/
theorem scan_isRun {n i start size s : ℕ} (hN : i + n = N) (hi : i = start + size)
    (hfree : ∀ k < size, free (start + k) = true) (h : scan free b n i start size = some s) :
    IsRun free N (max b 1) s := by
  induction n generalizing i start size with
  | zero => cases h
  | succ n ih =>
    rw [scan] at h
    have hnext : free i = true → ∀ k < size + 1, free (start + k) = true := by
      intro hf k hk
      rcases Nat.lt_succ_iff_lt_or_eq.mp hk with hlt | rfl
      · exact hfree k hlt
      · rw [← hi]
        exact hf
    split_ifs at h with hf hb
    · cases h
      exact ⟨by omega, fun k hk => hnext hf k (by omega)⟩
    · exact ih (by omega) (by omega) (hnext hf) h
    · exact ih (by omega) (by omega) (by simp) h

/-- A pass returns no place before its start. -/
theorem le_of_scan {n i start size s : ℕ} (hi : i = start + size) (h : scan free b n i start size = some s) :
    start ≤ s := by
  induction n generalizing i start size with
  | zero => cases h
  | succ n ih =>
    rw [scan] at h
    split_ifs at h with hf hb
    · cases h
      exact le_rfl
    · exact ih (by omega) h
    · have hle : i + 1 ≤ s := ih (Nat.add_zero (i + 1)).symm h
      omega

/-- A pass looks at no place before it. -/
theorem scan_congr {free' : ℕ → Bool} {n i start size : ℕ} (h : ∀ j, i ≤ j → free j = free' j) :
    scan free b n i start size = scan free' b n i start size := by
  induction n generalizing i start size with
  | zero => rfl
  | succ n ih =>
    have hnext : ∀ j, i + 1 ≤ j → free j = free' j := fun j hj => h j (Nat.le_of_succ_le hj)
    rw [scan, scan, h i le_rfl, ih hnext, ih hnext]

/-- Places below `i` that are all used cannot start a run, so a search may begin
at `i`. -/
theorem scan_finds_from (hb : 1 ≤ b) (i : ℕ) (hi : i ≤ N) (hused : ∀ j < i, free j = false) :
    Finds free N b (scan free b (N - i) i i 0) := by
  refine scan_finds (N - i) i i 0 (by omega) rfl (by omega) (by simp) ?_
  intro s hs hrun
  have h0 := hrun.2 0 (by omega)
  rw [Nat.add_zero, hused s hs] at h0
  exact absurd h0 (by decide)

end DualFuse.Library.FirstRun
