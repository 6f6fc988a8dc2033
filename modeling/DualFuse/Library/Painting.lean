import Mathlib.Data.List.Basic
import Mathlib.Logic.Function.Basic
import Mathlib.Data.Set.Basic

/-! What a list of strokes leaves at a place: the last stroke there wins. A stroke is a place and
what is put there. -/

namespace DualFuse.Library.Painting

variable {α β : Type*} [DecidableEq α] {l m : List (α × β)} {S T : Set α} {p : α} {c : β}

/-- The last stroke at a place. -/
def paint : List (α × β) → α → Option β
  | [], _ => none
  | s :: l, p => (paint l p).or (if s.1 = p then some s.2 else none)

/-- A picture after the strokes. -/
def put (f : α → β) (s : α × β) : α → β := Function.update f s.1 s.2

@[simp] theorem paint_nil (p : α) : paint ([] : List (α × β)) p = none := rfl

theorem paint_append (l m : List (α × β)) (p : α) : paint (l ++ m) p = (paint m p).or (paint l p) := by
  induction l with
  | nil => simp
  | cons s l ih => rw [List.cons_append, paint, ih, paint, Option.or_assoc]

theorem foldl_put (f : α → β) (l : List (α × β)) (p : α) : l.foldl put f p = (paint l p).getD (f p) := by
  induction l generalizing f with
  | nil => rfl
  | cons s l ih =>
    rw [List.foldl_cons, ih, put, Function.update_apply, paint]
    cases paint l p with
    | some b => rfl
    | none =>
      by_cases hs : s.1 = p
      · simp [hs]
      · simp [hs, Ne.symm hs]

theorem paint_eq_none_iff : paint l p = none ↔ ∀ s ∈ l, s.1 ≠ p := by
  induction l with
  | nil => simp
  | cons s l ih => simp [paint, Option.or_eq_none_iff, ih, and_comm]

theorem mem_of_paint {b : β} (h : paint l p = some b) : (p, b) ∈ l := by
  induction l with
  | nil => cases h
  | cons s l ih =>
    rw [paint, Option.or_eq_some_iff] at h
    rcases h with h | ⟨-, h⟩
    · exact List.mem_cons_of_mem s (ih h)
    · by_cases hs : s.1 = p
      · rw [if_pos hs] at h
        simp [← hs, ← Option.some_inj.mp h]
      · simp [hs] at h

/-! ### Shapes of one colour -/

/-- The strokes put one colour on a set of places. -/
def Fills (l : List (α × β)) (S : Set α) (c : β) : Prop :=
  (∀ s ∈ l, s.2 = c) ∧ ∀ p, p ∈ S ↔ ∃ s ∈ l, s.1 = p

theorem Fills.paint_of_mem (h : Fills l S c) (hp : p ∈ S) : paint l p = some c := by
  obtain ⟨s, hs, hsp⟩ := (h.2 p).mp hp
  cases hpaint : paint l p with
  | none => exact absurd hsp (paint_eq_none_iff.mp hpaint s hs)
  | some b => rw [← h.1 _ (mem_of_paint hpaint)]

theorem Fills.paint_of_notMem (h : Fills l S c) (hp : p ∉ S) : paint l p = none :=
  paint_eq_none_iff.mpr fun s hs hsp => hp ((h.2 p).mpr ⟨s, hs, hsp⟩)

omit [DecidableEq α] in
theorem Fills.append (hl : Fills l S c) (hm : Fills m T c) : Fills (l ++ m) (S ∪ T) c := by
  constructor
  · intro s hs
    exact (List.mem_append.mp hs).elim (hl.1 s) (hm.1 s)
  · intro p
    simp [hl.2 p, hm.2 p, List.mem_append, or_and_right, exists_or]

omit [DecidableEq α] in
theorem Fills.congr (h : Fills l S c) (hST : ∀ p, p ∈ S ↔ p ∈ T) : Fills l T c :=
  ⟨h.1, fun p => (hST p).symm.trans (h.2 p)⟩

omit [DecidableEq α] in
theorem fills_flatMap {ι : Type*} {is : List ι} {f : ι → List (α × β)} {S : ι → Set α}
    (h : ∀ i ∈ is, Fills (f i) (S i) c) : Fills (is.flatMap f) {p | ∃ i ∈ is, p ∈ S i} c := by
  constructor
  · intro s hs
    obtain ⟨i, hi, hs⟩ := List.mem_flatMap.mp hs
    exact (h i hi).1 s hs
  · intro p
    constructor
    · rintro ⟨i, hi, hp⟩
      obtain ⟨s, hs, hsp⟩ := ((h i hi).2 p).mp hp
      exact ⟨s, List.mem_flatMap.mpr ⟨i, hi, hs⟩, hsp⟩
    · rintro ⟨s, hs, hsp⟩
      obtain ⟨i, hi, hs⟩ := List.mem_flatMap.mp hs
      exact ⟨i, hi, ((h i hi).2 p).mpr ⟨s, hs, hsp⟩⟩

omit [DecidableEq α] in
theorem fills_map {ι : Type*} (is : List ι) (g : ι → α) (c : β) :
    Fills (is.map fun i => (g i, c)) {p | ∃ i ∈ is, g i = p} c := by
  constructor
  · simp
  · simp

end DualFuse.Library.Painting
