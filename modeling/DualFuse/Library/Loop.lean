import DualFuse.Library.Execution

/-! A loop whose rounds may fault. The plan of a loop says where it stops, where a round
leads, what a round needs and when it gets on. A loop that keeps to its plan ends exactly
where every state that the plan reaches has what its round needs and stops or gets on. -/

namespace DualFuse.Library.Loop

/-- What a round comes to: the result of the loop, or the state of the next round. -/
inductive Round (σ ρ : Type) where
  | done (r : ρ)
  | next (s : σ)

variable {σ ρ : Type} {round : σ → Exec (Round σ ρ)} {r : ρ} {s t : σ}

/-- At most `n` rounds; nothing if they are not enough. -/
def run (round : σ → Exec (Round σ ρ)) : ℕ → σ → Exec (Option ρ)
  | 0, _ => .ok none
  | n + 1, s => do
    match ← round s with
    | .done r => .ok (some r)
    | .next s => run round n s

/-- The loop ends with this result. -/
def EndsWith (round : σ → Exec (Round σ ρ)) (s : σ) (r : ρ) : Prop := ∃ n, run round n s = .ok (some r)

def Ends (round : σ → Exec (Round σ ρ)) (s : σ) : Prop := ∃ r, EndsWith round s r

theorem run_done (h : round s = .ok (.done r)) (n : ℕ) : run round (n + 1) s = .ok (some r) := by
  simp [run, h]

theorem run_next (h : round s = .ok (.next t)) (n : ℕ) : run round (n + 1) s = run round n t := by
  simp [run, h]

theorem run_error {e : Stop} (h : round s = .error e) (n : ℕ) : run round (n + 1) s = .error e := by
  simp [run, h]

theorem endsWith_done (h : round s = .ok (.done r)) : EndsWith round s r := ⟨1, run_done h 0⟩

theorem EndsWith.next (h : round s = .ok (.next t)) (ht : EndsWith round t r) : EndsWith round s r := by
  obtain ⟨n, hn⟩ := ht
  exact ⟨n + 1, (run_next h n).trans hn⟩

theorem endsWith_next_iff (h : round s = .ok (.next t)) : EndsWith round s r ↔ EndsWith round t r := by
  constructor
  · rintro ⟨n, hn⟩
    cases n with
    | zero => cases hn
    | succ n => exact ⟨n, (run_next h n).symm.trans hn⟩
  · exact EndsWith.next h

/-- More rounds do not change what a loop has come to. -/
theorem run_stable {n m : ℕ} (h : run round n s ≠ .ok none) (hm : n ≤ m) : run round m s = run round n s := by
  induction n generalizing s m with
  | zero => exact absurd rfl h
  | succ n ih =>
    obtain ⟨m, rfl⟩ : ∃ k, m = k + 1 := ⟨m - 1, by omega⟩
    cases hround : round s with
    | error e => rw [run_error hround, run_error hround]
    | ok a =>
      cases a with
      | done r => rw [run_done hround, run_done hround]
      | next t =>
        rw [run_next hround] at h ⊢
        rw [run_next hround]
        exact ih h (by omega)

theorem run_mono {n : ℕ} (h : run round n s = .ok (some r)) (m : ℕ) (hm : n ≤ m) : run round m s = .ok (some r) := by
  have hsome : run round n s ≠ .ok none := by
    rw [h]
    intro heq
    cases heq
  rw [run_stable hsome hm, h]

/-- A loop whose rounds are known. -/
theorem run_of_rounds {states : ℕ → σ} {n : ℕ} (hnext : ∀ k < n, round (states k) = .ok (.next (states (k + 1))))
    (hdone : round (states n) = .ok (.done r)) {m : ℕ} (hm : n < m) : run round m (states 0) = .ok (some r) := by
  have hrest : ∀ k ≤ n, run round m (states 0) = run round (m - k) (states k) := by
    intro k hk
    induction k with
    | zero => rfl
    | succ k ih =>
      rw [ih (by omega), show m - k = m - (k + 1) + 1 by omega, run_next (hnext k (by omega))]
  rw [hrest n le_rfl, show m - n = m - n - 1 + 1 by omega, run_done hdone]

/-- A loop that has come to something ends with it or not at all. -/
theorem endsWith_iff {n : ℕ} (h : run round n s ≠ .ok none) : EndsWith round s r ↔ run round n s = .ok (some r) := by
  constructor
  · rintro ⟨m, hm⟩
    have hmax := run_mono hm (max n m) (le_max_right n m)
    rwa [run_stable h (le_max_left n m)] at hmax
  · exact fun hn => ⟨n, hn⟩

theorem EndsWith.unique {r' : ρ} (h : EndsWith round s r) (h' : EndsWith round s r') : r = r' := by
  obtain ⟨n, hn⟩ := h
  obtain ⟨m, hm⟩ := h'
  have h₁ := run_mono hn (max n m) (le_max_left n m)
  have h₂ := run_mono hm (max n m) (le_max_right n m)
  simpa [h₁] using h₂

/-- What a loop is to do: `stop` ends it with `result`, a round leads to `next`, it needs `safe`
and gets on if `advances`. -/
structure Plan (σ ρ : Type) where
  stop : σ → Prop
  result : σ → ρ
  next : σ → σ
  safe : σ → Prop
  advances : σ → Prop

namespace Plan

/-- A state that the plan leads to before it stops. -/
inductive Reached (p : Plan σ ρ) : σ → σ → Prop
  | refl (s : σ) : Reached p s s
  | step {s t : σ} (hstop : ¬p.stop s) (h : Reached p (p.next s) t) : Reached p s t

/-- Every state on the way has what its round needs, and gets on unless it is the last one. -/
def Handled (p : Plan σ ρ) (s : σ) : Prop := ∀ t, p.Reached s t → p.safe t ∧ (p.stop t ∨ p.advances t)

/-- The rounds of a loop are those of the plan, in the states of an invariant. -/
structure Kept (p : Plan σ ρ) (inv : σ → Prop) (round : σ → Exec (Round σ ρ)) : Prop where
  faults : ∀ s, inv s → ¬p.safe s → ∃ e, round s = .error e
  stops : ∀ s, inv s → p.safe s → p.stop s → round s = .ok (.done (p.result s))
  leads : ∀ s, inv s → p.safe s → ¬p.stop s → round s = .ok (.next (p.next s))
  keeps : ∀ s, inv s → p.safe s → ¬p.stop s → inv (p.next s)

/-- A state that does not get on leads to one that does not get on. -/
def Sticks (p : Plan σ ρ) (inv : σ → Prop) : Prop :=
  ∀ s, inv s → p.safe s → ¬p.stop s → ¬p.advances s → ¬p.stop (p.next s) ∧ ¬p.advances (p.next s)

/-- Rounds that get on bring the end nearer. -/
def Measured (p : Plan σ ρ) (μ : σ → ℕ) : Prop := ∀ s, p.safe s → ¬p.stop s → p.advances s → μ (p.next s) < μ s

variable {p : Plan σ ρ} {inv : σ → Prop} {μ : σ → ℕ}

theorem Handled.safe (h : p.Handled s) : p.safe s := (h s (.refl s)).1

theorem Handled.next (h : p.Handled s) (hstop : ¬p.stop s) : p.Handled (p.next s) :=
  fun t ht => h t (.step hstop ht)

theorem handled_of_next (hsafe : p.safe s) (hstop : p.stop s ∨ p.advances s)
    (hnext : ¬p.stop s → p.Handled (p.next s)) : p.Handled s := by
  intro t ht
  cases ht with
  | refl => exact ⟨hsafe, hstop⟩
  | step hnot h => exact hnext hnot t h

/-- A state that leads to itself does not get on. -/
theorem sticks_of_next_eq (h : ∀ s, ¬p.advances s → p.next s = s) : p.Sticks inv := by
  intro s _ _ hstop hstuck
  rw [h s hstuck]
  exact ⟨hstop, hstuck⟩

namespace Kept

/-- A loop that has come to a halt never ends. -/
theorem not_some_of_stuck (h : p.Kept inv round) (hsticks : p.Sticks inv) {n : ℕ} (hs : inv s) (hstop : ¬p.stop s)
    (hstuck : ¬p.advances s) : run round n s ≠ .ok (some r) := by
  induction n generalizing s with
  | zero => simp [run]
  | succ n ih =>
    by_cases hsafe : p.safe s
    · rw [run_next (h.leads s hs hsafe hstop)]
      obtain ⟨hstop', hstuck'⟩ := hsticks s hs hsafe hstop hstuck
      exact ih (h.keeps s hs hsafe hstop) hstop' hstuck'
    · obtain ⟨e, he⟩ := h.faults s hs hsafe
      simp [run_error he]

theorem handled_of_ends (h : p.Kept inv round) (hsticks : p.Sticks inv) (hs : inv s) (hends : Ends round s) :
    p.Handled s := by
  obtain ⟨r, n, hn⟩ := hends
  induction n generalizing s with
  | zero => cases hn
  | succ n ih =>
    have hsafe : p.safe s := by
      by_contra hnot
      obtain ⟨e, he⟩ := h.faults s hs hnot
      simp [run_error he] at hn
    apply handled_of_next hsafe
    · by_contra hnot
      rw [not_or] at hnot
      exact h.not_some_of_stuck hsticks hs hnot.1 hnot.2 hn
    · intro hstop
      rw [run_next (h.leads s hs hsafe hstop)] at hn
      exact ih (h.keeps s hs hsafe hstop) hn

theorem ends_of_handled (h : p.Kept inv round) (hmeasured : p.Measured μ) (hs : inv s) (hhandled : p.Handled s) :
    Ends round s := by
  induction hm : μ s using Nat.strong_induction_on generalizing s with
  | _ m ih =>
    by_cases hstop : p.stop s
    · exact ⟨p.result s, endsWith_done (h.stops s hs hhandled.safe hstop)⟩
    have hadvances : p.advances s := (hhandled s (.refl s)).2.resolve_left hstop
    have hlt : μ (p.next s) < m := hm ▸ hmeasured s hhandled.safe hstop hadvances
    obtain ⟨r, hr⟩ := ih _ hlt (h.keeps s hs hhandled.safe hstop) (hhandled.next hstop) rfl
    exact ⟨r, hr.next (h.leads s hs hhandled.safe hstop)⟩

/-- The rule for loops that keep to their plan. -/
theorem ends_iff (h : p.Kept inv round) (hsticks : p.Sticks inv) (hmeasured : p.Measured μ) (hs : inv s) :
    Ends round s ↔ p.Handled s :=
  ⟨h.handled_of_ends hsticks hs, h.ends_of_handled hmeasured hs⟩

/-- A walk with a bound on its steps that does not check what it needs gives the result of
the loop, where the loop ends. -/
theorem walk_eq (h : p.Kept inv round) (hmeasured : p.Measured μ) (walk : ℕ → σ → Exec ρ)
    (hdone : ∀ n s, inv s → p.stop s → walk (n + 1) s = .ok (p.result s))
    (hnext : ∀ n s, inv s → ¬p.stop s → walk (n + 1) s = walk n (p.next s)) (hs : inv s) (hhandled : p.Handled s)
    (hends : EndsWith round s r) {n : ℕ} (hn : μ s < n) : walk n s = .ok r := by
  induction n generalizing s with
  | zero => omega
  | succ n ih =>
    by_cases hstop : p.stop s
    · rw [hends.unique (endsWith_done (h.stops s hs hhandled.safe hstop))]
      exact hdone n s hs hstop
    · have hadvances : p.advances s := (hhandled s (.refl s)).2.resolve_left hstop
      have hlead := h.leads s hs hhandled.safe hstop
      have hlt := hmeasured s hhandled.safe hstop hadvances
      obtain ⟨r', hr'⟩ := h.ends_of_handled hmeasured (h.keeps s hs hhandled.safe hstop) (hhandled.next hstop)
      rw [(hr'.next hlead).unique hends] at hr'
      rw [hnext n s hs hstop]
      exact ih (h.keeps s hs hhandled.safe hstop) (hhandled.next hstop) hr' (by omega)

end Kept

end Plan

end DualFuse.Library.Loop
