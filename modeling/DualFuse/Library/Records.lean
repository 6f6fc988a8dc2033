import Mathlib.Tactic

/-! Walks over records that lie one behind the other, where each record says how long it is. A walk
goes from record to record until it passes an end or comes to a record that stops it. What it
reads and what it computes are those of the records it visits. -/

namespace DualFuse.Library.Records

section Positions
variable (length : ℕ → ℕ)

/-- Where the `n`th record behind `start` begins. -/
def position (start : ℕ) : ℕ → ℕ
  | 0 => start
  | n + 1 => position start n + length (position start n)

@[simp] theorem position_zero (start : ℕ) : position length start 0 = start := rfl

theorem position_succ (start n : ℕ) :
    position length start (n + 1) = position length start n + length (position length start n) := rfl

/-- The records behind the first one. -/
theorem position_tail (start n : ℕ) : position length (start + length start) n = position length start (n + 1) := by
  induction n with
  | zero => rfl
  | succ n ih => rw [position_succ, ih, ← position_succ]

theorem position_mono (start : ℕ) {m n : ℕ} (h : m ≤ n) : position length start m ≤ position length start n := by
  induction h with
  | refl => exact le_rfl
  | step _ ih => exact ih.trans (Nat.le_add_right _ _)

end Positions

section Walks
variable {ρ : Type} (length : ℕ → ℕ) (stops : ℕ → Bool) (reads : ℕ → List ℕ) (visit : ℕ → ρ → ρ) (stop : ℕ)

/-- The walk from `curr` up to `stop`, with what it reads and its result, if it takes less than the
given number of steps. -/
def walk : ℕ → ℕ → ρ → Option (List ℕ × ρ)
  | 0, _, _ => none
  | fuel + 1, curr, r =>
    if curr < stop then
      if stops curr then some (reads curr, visit curr r)
      else (walk fuel (curr + length curr) (visit curr r)).map fun x => (reads curr ++ x.1, x.2)
    else some ([], r)

/-- The walk ends at the `n`th record, which it visits if that is before the end. -/
structure Ends (start n : ℕ) : Prop where
  passed : ∀ j < n, position length start j < stop ∧ stops (position length start j) = false
  here : stop ≤ position length start n ∨ stops (position length start n) = true

/-- The records that a walk visits which ends at the `n`th one. -/
def visited (start n : ℕ) : List ℕ :=
  (List.range n).map (position length start) ++
    if position length start n < stop then [position length start n] else []

variable {length stops reads visit stop} {start n : ℕ}

theorem Ends.tail (h : Ends length stops stop start (n + 1)) : Ends length stops stop (start + length start) n where
  passed j hj := by
    rw [position_tail]
    exact h.passed (j + 1) (by omega)
  here := by
    rw [position_tail]
    exact h.here

theorem Ends.cons (hpassed : start < stop ∧ stops start = false)
    (h : Ends length stops stop (start + length start) n) :
    Ends length stops stop start (n + 1) where
  passed j hj := by
    cases j with
    | zero => exact hpassed
    | succ j =>
      rw [← position_tail]
      exact h.passed j (by omega)
  here := by
    rw [← position_tail]
    exact h.here

/-- A walk ends at one record only. -/
theorem Ends.unique {m : ℕ} (h : Ends length stops stop start m) (h' : Ends length stops stop start n) : m = n := by
  have hle : ∀ {m n}, Ends length stops stop start m → Ends length stops stop start n → n ≤ m := by
    intro m n h h'
    by_contra hlt
    obtain ⟨hpos, hgoes⟩ := h'.passed m (by omega)
    rcases h.here with hend | hstops
    · omega
    · simp [hgoes] at hstops
  exact le_antisymm (hle h' h) (hle h h')

theorem visited_succ (start n : ℕ) :
    visited length stop start (n + 1) = start :: visited length stop (start + length start) n := by
  simp only [visited, position_tail, List.range_succ_eq_map, List.map_cons, List.map_map, position_zero,
    List.cons_append]
  congr 2
  apply List.map_congr_left
  intro j _
  exact (position_tail length start j).symm

theorem forall_visited_iff {P : ℕ → Prop} : (∀ p ∈ visited length stop start n, P p) ↔
    (∀ j < n, P (position length start j)) ∧ (position length start n < stop → P (position length start n)) := by
  unfold visited
  rw [List.forall_mem_append, List.forall_mem_map]
  apply and_congr
  · simp
  · by_cases h : position length start n < stop
    · simp [h]
    · simp [h]

theorem walk_of_ends (h : Ends length stops stop start n) (r : ρ) :
    walk length stops reads visit stop (n + 1) start r =
      some ((visited length stop start n).flatMap reads,
        (visited length stop start n).foldl (fun r p => visit p r) r) := by
  induction n generalizing start r with
  | zero =>
    rw [walk]
    by_cases hstart : start < stop
    · have hstops := h.here.resolve_left (by simpa using hstart)
      rw [position_zero] at hstops
      simp [visited, hstart, hstops]
    · simp [visited, hstart]
  | succ n ih =>
    obtain ⟨hstart, hgoes⟩ := h.passed 0 (Nat.succ_pos n)
    rw [position_zero] at hstart hgoes
    rw [walk, if_pos hstart, if_neg (by simp [hgoes]), ih h.tail, visited_succ]
    rfl

theorem ends_of_walk {fuel : ℕ} {r : ρ} {x : List ℕ × ρ}
    (h : walk length stops reads visit stop fuel start r = some x) :
    ∃ n, Ends length stops stop start n := by
  induction fuel generalizing start r x with
  | zero => cases h
  | succ fuel ih =>
    rw [walk] at h
    by_cases hstart : start < stop
    · rw [if_pos hstart] at h
      cases hstops : stops start with
      | true => exact ⟨0, fun j hj => absurd hj (Nat.not_lt_zero j), .inr hstops⟩
      | false =>
        rw [if_neg (by simp [hstops]), Option.map_eq_some_iff] at h
        obtain ⟨y, hy, -⟩ := h
        obtain ⟨n, hn⟩ := ih hy
        exact ⟨n + 1, hn.cons ⟨hstart, hstops⟩⟩
    · exact ⟨0, fun j hj => absurd hj (Nat.not_lt_zero j), .inl (by simpa using hstart)⟩

theorem walk_mono {fuel fuel' : ℕ} {r : ρ} {x : List ℕ × ρ} (hle : fuel ≤ fuel')
    (h : walk length stops reads visit stop fuel start r = some x) :
    walk length stops reads visit stop fuel' start r = some x := by
  induction fuel generalizing fuel' start r x with
  | zero => cases h
  | succ fuel ih =>
    obtain ⟨fuel', rfl⟩ : ∃ k, fuel' = k + 1 := ⟨fuel' - 1, by omega⟩
    rw [walk] at h ⊢
    split_ifs at h ⊢ with hstart hstops
    · exact h
    · rw [Option.map_eq_some_iff] at h ⊢
      obtain ⟨y, hy, rfl⟩ := h
      exact ⟨y, ih (by omega) hy, rfl⟩
    · exact h

/-- A walk comes to an end exactly when its records lead to one, and does what these ask for. -/
theorem walk_iff (reads : ℕ → List ℕ) (visit : ℕ → ρ → ρ) (r : ρ) (P : List ℕ → ρ → Prop) :
    (∃ fuel x, walk length stops reads visit stop fuel start r = some x ∧ P x.1 x.2) ↔
      ∃ n, Ends length stops stop start n ∧ P ((visited length stop start n).flatMap reads)
        ((visited length stop start n).foldl (fun r p => visit p r) r) := by
  constructor
  · rintro ⟨fuel, x, hx, hP⟩
    obtain ⟨n, hn⟩ := ends_of_walk hx
    have hboth := walk_mono (le_max_left fuel (n + 1)) hx
    rw [walk_mono (le_max_right fuel (n + 1)) (walk_of_ends hn r)] at hboth
    cases hboth
    exact ⟨n, hn, hP⟩
  · rintro ⟨n, hn, hP⟩
    exact ⟨n + 1, _, walk_of_ends hn r, hP⟩

/-- The result of a walk, where only a record that stops it changes anything. -/
theorem foldl_visited (h : Ends length stops stop start n) (r : ρ)
    (hvisit : ∀ curr r, stops curr = false → visit curr r = r) :
    (visited length stop start n).foldl (fun r p => visit p r) r =
      if position length start n < stop then visit (position length start n) r else r := by
  have hpassed : ∀ l : List ℕ, (∀ p ∈ l, stops p = false) → l.foldl (fun r p => visit p r) r = r := by
    intro l hl
    induction l with
    | nil => rfl
    | cons p l ih =>
      rw [List.forall_mem_cons] at hl
      rw [List.foldl_cons, hvisit p r hl.1, ih hl.2]
  unfold visited
  rw [List.foldl_append, hpassed]
  · split_ifs <;> rfl
  · intro p hp
    obtain ⟨j, hj, rfl⟩ := List.mem_map.mp hp
    exact (h.passed j (List.mem_range.mp hj)).2

end Walks

end DualFuse.Library.Records
