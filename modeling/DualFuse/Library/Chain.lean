import Mathlib.Tactic

/-! Paths along links. A link leads from a node to the next one, or a node has none; a
path is the list of the nodes that it leaves, and it ends where the last of them
leads. Chains with a sentinel at their end are the paths to that sentinel. -/

namespace DualFuse.Library

universe u

variable {α : Type u}

/-- The nodes of `l` lead, one after the other, from `p` to `q`. -/
def Path (next : α → Option α) : α → List α → α → Prop
  | p, [], q => p = q
  | p, a :: l, q => p = a ∧ ∃ r, next a = some r ∧ Path next r l q

namespace Path

variable {next next' : α → Option α} {p q a : α} {l l' : List α}

@[simp] theorem nil_iff : Path next p [] q ↔ p = q := Iff.rfl

theorem append_iff : Path next p (l ++ l') q ↔ ∃ r, Path next p l r ∧ Path next r l' q := by
  induction l generalizing p with
  | nil => simp
  | cons a l ih =>
    constructor
    · rintro ⟨rfl, r, hr, h⟩
      obtain ⟨t, hl, hl'⟩ := ih.mp h
      exact ⟨t, ⟨rfl, r, hr, hl⟩, hl'⟩
    · rintro ⟨t, ⟨rfl, r, hr, hl⟩, hl'⟩
      exact ⟨rfl, r, hr, ih.mpr ⟨t, hl, hl'⟩⟩

theorem eq_headD (h : Path next p l q) : p = l.headD q := by
  cases l with
  | nil => exact h
  | cons a l => exact h.1

theorem singleton (h : next a = some q) : Path next a [a] q := ⟨rfl, q, h, rfl⟩

/-- A path depends on the links of its nodes only. -/
theorem congr (h : Path next p l q) (hnext : ∀ a ∈ l, next' a = next a) : Path next' p l q := by
  induction l generalizing p with
  | nil => exact h
  | cons a l ih =>
    obtain ⟨rfl, r, hr, h⟩ := h
    refine ⟨rfl, r, ?_, ih h fun b hb => hnext b (List.mem_cons_of_mem _ hb)⟩
    rw [hnext p List.mem_cons_self]
    exact hr

theorem linked (h : Path next p l q) (ha : a ∈ l) : ∃ r, next a = some r := by
  induction l generalizing p with
  | nil => exact absurd ha List.not_mem_nil
  | cons b l ih =>
    obtain ⟨rfl, r, hr, h⟩ := h
    rcases List.mem_cons.mp ha with rfl | ha
    · exact ⟨r, hr⟩
    · exact ih h ha

/-- A link of a path leads to one of its nodes or to its end. -/
theorem next_mem {r : α} (h : Path next p l q) (ha : a ∈ l) (hr : next a = some r) : r ∈ l ∨ r = q := by
  obtain ⟨before, after, rfl⟩ := List.append_of_mem ha
  obtain ⟨t, -, rfl, r', hr', h⟩ := append_iff.mp h
  obtain rfl : r' = r := Option.some.inj (hr'.symm.trans hr)
  cases after with
  | nil => exact .inr h
  | cons b after => exact .inl (by simp [h.1])

/-- Where no link leads on, only the empty path begins. -/
theorem eq_nil_iff (h : Path next p l q) (hq : next q = none) : l = [] ↔ p = q := by
  cases l with
  | nil => simpa using h
  | cons a l =>
    obtain ⟨rfl, r, hr, -⟩ := h
    constructor
    · intro hnil
      cases hnil
    · rintro rfl
      rw [hq] at hr
      cases hr

/-- The end of a path is moved by the link of its last node. -/
theorem redirect [DecidableEq α] {r : α} (h : Path next p (l ++ [a]) q) (ha : a ∉ l) :
    Path (Function.update next a (some r)) p (l ++ [a]) r := by
  obtain ⟨t, hl, ⟨rfl, -⟩⟩ := append_iff.mp h
  refine append_iff.mpr ⟨t, hl.congr fun b hb => ?_, singleton (Function.update_self _ _ _)⟩
  have hne : b ≠ t := fun heq => ha (heq ▸ hb)
  exact Function.update_of_ne hne _ _

end Path

end DualFuse.Library
