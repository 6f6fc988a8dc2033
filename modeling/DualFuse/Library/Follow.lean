import Mathlib.Tactic
import Mathlib.Order.WellFounded

/-! A step that ends with a result or leads to the next place, repeated. It ends exactly
where no endless chain begins, and a place that leads back to itself begins one. -/

namespace DualFuse.Library.Follow

variable {α β : Type*}

/-- The result after at most `n` steps. -/
def follow (step : α → β ⊕ α) : ℕ → α → Option β
  | 0, _ => none
  | n + 1, a =>
    match step a with
    | .inl b => some b
    | .inr a' => follow step n a'

variable {step : α → β ⊕ α} {leads : α → α → Prop}

/-- A place begins an endless chain. -/
def Endless (leads : α → α → Prop) (a : α) : Prop :=
  ∃ chain : ℕ → α, chain 0 = a ∧ ∀ n, leads (chain n) (chain (n + 1))

/-- From the place on, a place is reached that leads back to itself. -/
def Cyclic (leads : α → α → Prop) (a : α) : Prop :=
  ∃ b, Relation.ReflTransGen leads a b ∧ Relation.TransGen leads b b

theorem follow_inr {a a' : α} (h : step a = .inr a') (n : ℕ) : follow step (n + 1) a = follow step n a' := by
  rw [follow, h]

theorem follow_inl {a : α} {b : β} (h : step a = .inl b) (n : ℕ) : follow step (n + 1) a = some b := by
  rw [follow, h]

/-- A result is the result of one step, at a place that the steps before it lead to. -/
theorem exists_leads_of_follow {n : ℕ} {a : α} {b : β} (h : follow step n a = some b) :
    ∃ a', Relation.ReflTransGen (fun x y => step x = .inr y) a a' ∧ step a' = .inl b := by
  induction n generalizing a with
  | zero => cases h
  | succ n ih =>
    cases hstep : step a with
    | inl b' =>
      rw [follow_inl hstep] at h
      exact ⟨a, .refl, hstep.trans (congrArg _ (Option.some.inj h))⟩
    | inr next =>
      rw [follow_inr hstep] at h
      obtain ⟨a', hleads, hend⟩ := ih h
      exact ⟨a', .head hstep hleads, hend⟩

/-- No endless chain begins where a result is found. -/
theorem not_endless_of_follow (hleads : ∀ a a', leads a a' → step a = .inr a') {n : ℕ} {a : α} {b : β}
    (h : follow step n a = some b) : ¬Endless leads a := by
  rintro ⟨chain, rfl, hchain⟩
  have hnone : ∀ m k, follow step m (chain k) = none := by
    intro m
    induction m with
    | zero => exact fun _ => rfl
    | succ m ih =>
      intro k
      rw [follow_inr (hleads _ _ (hchain k)), ih]
  rw [hnone n 0] at h
  cases h

theorem acc_of_not_endless {a : α} (h : ¬Endless leads a) : Acc (Function.swap leads) a :=
  not_not.mp fun hnot => h (not_acc_iff_exists_descending_chain.mp hnot)

theorem endless_of_lead {a a' : α} (h : leads a a') (h' : Endless leads a') : Endless leads a := by
  obtain ⟨chain, rfl, hchain⟩ := h'
  refine ⟨fun k => Nat.casesOn k a chain, rfl, fun k => ?_⟩
  cases k with
  | zero => exact h
  | succ k => exact hchain k

/-- Where no endless chain begins, some number of steps is enough. -/
theorem exists_follow_of_not_endless (hleads : ∀ a a', step a = .inr a' → leads a a') {a : α}
    (h : ¬Endless leads a) : ∃ n b, follow step n a = some b := by
  induction acc_of_not_endless h with
  | intro a _ ih =>
    cases hstep : step a with
    | inl b =>
      refine ⟨1, b, ?_⟩
      rw [follow, hstep]
    | inr a' =>
      have hlead := hleads a a' hstep
      obtain ⟨n, b, hb⟩ := ih a' hlead fun hend => h (endless_of_lead hlead hend)
      exact ⟨n + 1, b, (follow_inr hstep n).trans hb⟩

theorem follow_ends_iff (hleads : ∀ a a', leads a a' ↔ step a = .inr a') (a : α) :
    (∃ n b, follow step n a = some b) ↔ ¬Endless leads a := by
  refine ⟨?_, exists_follow_of_not_endless fun a a' => (hleads a a').mpr⟩
  rintro ⟨n, b, hb⟩
  exact not_endless_of_follow (fun a a' => (hleads a a').mp) hb

theorem not_rel_of_acc {r : α → α → Prop} {a : α} (h : Acc r a) : ¬r a a := by
  induction h with
  | intro a _ ih => exact fun hself => ih a hself hself

theorem Cyclic.endless {a : α} (h : Cyclic leads a) : Endless leads a := by
  obtain ⟨b, hreach, hcycle⟩ := h
  have hback : Endless leads b := by
    by_contra hnot
    have hself : Relation.TransGen (Function.swap leads) b b := Relation.transGen_swap.mpr hcycle
    exact not_rel_of_acc (acc_of_not_endless hnot).transGen hself
  induction hreach using Relation.ReflTransGen.head_induction_on with
  | refl => exact hback
  | head hlead _ ih => exact endless_of_lead hlead ih

end DualFuse.Library.Follow
