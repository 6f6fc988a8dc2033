import DualFuse.Library.Execution

/-! Records that count their users. A record is named by its place in the order of the
allocations, so a name is never used again; a record whose last user has gone is
released and keeps its place. -/

namespace DualFuse.Library

structure Shared (α : Type) where
  utilizedBy : ℤ
  released : Bool
  value : α
  deriving DecidableEq, Repr

abbrev SharedPool (α : Type) := List (Shared α)

namespace Shared

variable {α : Type}

/-- A record as it is allocated. -/
def fresh (a : α) : Shared α := ⟨1, false, a⟩

def add (c : Shared α) : Shared α := { c with utilizedBy := c.utilizedBy + 1 }

/-- One user fewer; the last one releases the record. -/
def drop (c : Shared α) : Shared α :=
  { c with utilizedBy := c.utilizedBy - 1, released := c.released || c.utilizedBy - 1 == 0 }

end Shared

namespace SharedPool

variable {α : Type} {p p' : SharedPool α} {users users' : ℕ → ℕ} {r : ℕ} {c : Shared α}

def cell (p : SharedPool α) (r : ℕ) : Exec (Shared α) :=
  match p[r]? with
  | none => .error .fault
  | some c => .ok c

/-- The record, where its memory was not given back. -/
def inUse (p : SharedPool α) (r : ℕ) : Exec (Shared α) := do
  let c ← p.cell r
  if c.released then .error .fault else .ok c

theorem cell_ok_iff : p.cell r = .ok c ↔ p[r]? = some c := by
  unfold cell
  cases p[r]? with
  | none => simp
  | some d => simp

theorem inUse_ok_iff : p.inUse r = .ok c ↔ p[r]? = some c ∧ c.released = false := by
  rw [inUse, Exec.bind_ok_iff]
  constructor
  · rintro ⟨d, hd, h⟩
    rw [cell_ok_iff] at hd
    split at h
    · cases h
    · cases h
      exact ⟨hd, by simpa using ‹¬ c.released = true›⟩
  · rintro ⟨hc, hr⟩
    exact ⟨c, cell_ok_iff.mpr hc, by simp [hr]⟩

/-- Every record counts its users, it is released exactly when it has none, and every user
has a record that is not released. -/
structure Counted (p : SharedPool α) (users : ℕ → ℕ) : Prop where
  utilizedBy : ∀ r c, p[r]? = some c → c.utilizedBy = (users r : ℤ)
  released : ∀ r c, p[r]? = some c → (c.released = true ↔ users r = 0)
  used : ∀ r, users r ≠ 0 → ∃ c, p[r]? = some c ∧ c.released = false

theorem Counted.congr (h : Counted p users) (heq : ∀ r, users' r = users r) : Counted p users' := by
  rwa [show users' = users from funext heq]

theorem Counted.inUse (h : Counted p users) (hr : users r ≠ 0) :
    ∃ c, p.inUse r = .ok c ∧ p[r]? = some c := by
  obtain ⟨c, hc, hrel⟩ := h.used r hr
  exact ⟨c, inUse_ok_iff.mpr ⟨hc, hrel⟩, hc⟩

theorem Counted.users_length (h : Counted p users) : users p.length = 0 := by
  by_contra hne
  obtain ⟨c, hc, -⟩ := h.used _ hne
  simp at hc

theorem counted_nil : Counted ([] : SharedPool α) fun _ => 0 :=
  ⟨by simp, by simp, by simp⟩

/-- A record is allocated for one user. -/
theorem Counted.allocate (h : Counted p users) (a : α)
    (heq : ∀ r, users' r = users r + if r = p.length then 1 else 0) : Counted (p ++ [.fresh a]) users' := by
  have hlen := h.users_length
  constructor
  · intro r c hc
    rw [List.getElem?_append] at hc
    have := h.utilizedBy r c
    grind [Shared.fresh]
  · intro r c hc
    rw [List.getElem?_append] at hc
    have := h.released r c
    grind [Shared.fresh]
  · intro r hr
    by_cases hnew : r = p.length
    · subst hnew
      exact ⟨.fresh a, List.getElem?_concat_length, rfl⟩
    · rw [heq, if_neg hnew, Nat.add_zero] at hr
      obtain ⟨c, hc, hrel⟩ := h.used r hr
      exact ⟨c, by rw [List.getElem?_append_left (List.getElem?_eq_some_iff.mp hc).1, hc], hrel⟩

/-- One more user comes to a record that has one. -/
theorem Counted.share (h : Counted p users) (hc : p[r]? = some c) (hr : users r ≠ 0)
    (heq : ∀ q, users' q = users q + if q = r then 1 else 0) : Counted (p.set r c.add) users' := by
  have hcount := h.utilizedBy r c hc
  have hrel := h.released r c hc
  constructor
  · intro q d hd
    have := h.utilizedBy q d
    grind [Shared.add]
  · intro q d hd
    have := h.released q d
    grind [Shared.add]
  · intro q hq
    have := h.used q
    grind [Shared.add]

end SharedPool

end DualFuse.Library
