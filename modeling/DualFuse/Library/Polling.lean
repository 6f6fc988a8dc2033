import Mathlib.Tactic

/-! Polling a device with a budget. What the reads of a device give is a sequence. A wait
that starts at a place of it is answered by the first read there that is ready, or no read
within the budget is. Also the logs in which every event is permitted by those before it. -/

namespace DualFuse.Library.Polling

section Reads
variable {α : Type*} (ready : α → Bool) (reads : ℕ → α)

/-- The first read from `pos` on that is ready comes after `k` others. -/
def Answers (pos k : ℕ) : Prop := (∀ j < k, ready (reads (pos + j)) = false) ∧ ready (reads (pos + k)) = true

/-- None of `n` reads from `pos` on is ready. -/
def Silent (pos n : ℕ) : Prop := ∀ j < n, ready (reads (pos + j)) = false

/-- What `n` reads from `pos` on give. -/
def values (pos n : ℕ) : List α := (List.range n).map fun j => reads (pos + j)

@[simp] theorem length_values (pos n : ℕ) : (values reads pos n).length = n := by
  simp [values]

theorem values_succ (pos n : ℕ) : values reads pos (n + 1) = reads pos :: values reads (pos + 1) n := by
  simp [values, List.range_succ_eq_map, Function.comp_def, Nat.add_assoc, Nat.add_comm 1]

theorem values_append (pos n : ℕ) : values reads pos (n + 1) = values reads pos n ++ [reads (pos + n)] := by
  simp [values, List.range_succ]

variable {ready reads} {pos k n : ℕ}

theorem Answers.tail (h : Answers ready reads pos (k + 1)) : Answers ready reads (pos + 1) k := by
  constructor
  · intro j hj
    rw [Nat.add_assoc, Nat.add_comm 1]
    exact h.1 (j + 1) (by omega)
  · rw [Nat.add_assoc, Nat.add_comm 1]
    exact h.2

theorem Silent.tail (h : Silent ready reads pos (n + 1)) : Silent ready reads (pos + 1) n := by
  intro j hj
  rw [Nat.add_assoc, Nat.add_comm 1]
  exact h (j + 1) (by omega)

theorem Answers.unique {k' : ℕ} (h : Answers ready reads pos k) (h' : Answers ready reads pos k') : k = k' := by
  rcases Nat.lt_trichotomy k k' with hlt | heq | hgt
  · simpa [h.2] using h'.1 k hlt
  · exact heq
  · simpa [h'.2] using h.1 k' hgt

theorem Answers.not_silent (h : Answers ready reads pos k) (hk : k < n) : ¬Silent ready reads pos n := by
  intro hs
  simpa [h.2] using hs k hk

theorem silent_or_answers (ready : α → Bool) (reads : ℕ → α) (pos n : ℕ) :
    Silent ready reads pos n ∨ ∃ k < n, Answers ready reads pos k := by
  induction n with
  | zero => exact .inl fun j hj => absurd hj (Nat.not_lt_zero j)
  | succ n ih =>
    rcases ih with hs | ⟨k, hk, ha⟩
    · cases hr : ready (reads (pos + n)) with
      | true => exact .inr ⟨n, n.lt_succ_self, hs, hr⟩
      | false =>
        refine .inl fun j hj => ?_
        rcases Nat.lt_succ_iff_lt_or_eq.mp hj with hlt | rfl
        · exact hs j hlt
        · exact hr
    · exact .inr ⟨k, by omega, ha⟩

theorem Silent.not_mem_values (h : Silent ready reads pos n) {v : α} (hv : v ∈ values reads pos n) :
    ready v = false := by
  simp only [values, List.mem_map, List.mem_range] at hv
  obtain ⟨j, hj, rfl⟩ := hv
  exact h j hj

theorem Answers.mem_values (h : Answers ready reads pos k) : ∃ v ∈ values reads pos (k + 1), ready v = true :=
  ⟨reads (pos + k), by simp [values_append], h.2⟩

variable (ready reads)

/-- A wait is answered by one of `budget + 1` reads. Behind an answer before the last of
them it goes on with `next`. -/
def Waits (budget : ℕ) (next : ℕ → Prop) (pos : ℕ) : Prop :=
  ∃ k ≤ budget, Answers ready reads pos k ∧ (k < budget → next (pos + k + 1))

variable {ready reads} {budget : ℕ} {next : ℕ → Prop}

theorem Answers.waits_iff (h : Answers ready reads pos k) (hk : k < budget) :
    Waits ready reads budget next pos ↔ next (pos + k + 1) := by
  constructor
  · rintro ⟨k', -, h', hnext⟩
    cases h.unique h'
    exact hnext hk
  · exact fun hnext => ⟨k, hk.le, h, fun _ => hnext⟩

theorem Answers.waits (h : Answers ready reads pos budget) : Waits ready reads budget next pos :=
  ⟨budget, le_rfl, h, fun hlt => absurd hlt (lt_irrefl _)⟩

theorem Silent.not_waits (h : Silent ready reads pos (budget + 1)) : ¬Waits ready reads budget next pos := by
  rintro ⟨k, hk, ha, -⟩
  exact ha.not_silent (by omega) h

/-- The three ways a wait can end. -/
theorem wait_cases (ready : α → Bool) (reads : ℕ → α) (budget pos : ℕ) :
    (∃ k < budget, Answers ready reads pos k) ∨ Answers ready reads pos budget ∨
      Silent ready reads pos (budget + 1) := by
  rcases silent_or_answers ready reads pos (budget + 1) with hs | ⟨k, hk, ha⟩
  · exact .inr (.inr hs)
  · rcases Nat.lt_succ_iff_lt_or_eq.mp hk with hlt | rfl
    · exact .inl ⟨k, hlt, ha⟩
    · exact .inr (.inl ha)

end Reads

section Permitted
variable {ε : Type*}

/-- Every event of the log is allowed after those before it. -/
def Permitted (allowed : List ε → ε → Prop) (log : List ε) : Prop :=
  ∀ before e after, log = before ++ e :: after → allowed before e

variable {allowed : List ε → ε → Prop} {log more : List ε} {e : ε}

theorem permitted_nil : Permitted allowed [] := by
  intro before e after h
  simp at h

theorem Permitted.of_append (h : Permitted allowed (log ++ more)) : Permitted allowed log := by
  rintro before e after rfl
  exact h before e (after ++ more) (by simp)

theorem permitted_concat_iff : Permitted allowed (log ++ [e]) ↔ Permitted allowed log ∧ allowed log e := by
  constructor
  · exact fun h => ⟨h.of_append, h log e [] rfl⟩
  · rintro ⟨hlog, he⟩ before e' after heq
    rcases List.eq_nil_or_concat after with rfl | ⟨after', last, rfl⟩
    · obtain ⟨rfl, hlast⟩ := List.append_inj' heq rfl
      obtain rfl := List.singleton_inj.mp hlast
      exact he
    · rw [List.concat_eq_append, ← List.cons_append, ← List.append_assoc] at heq
      exact hlog before e' after' (List.append_inj' heq rfl).1

end Permitted

end DualFuse.Library.Polling
