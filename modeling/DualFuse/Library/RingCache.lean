import Mathlib.Tactic

/-! A cache of a fixed number of places that are filled one after the other, and again from
the first one on when all are taken. A place that was never filled has a tag that stands for
no key, and blank contents. If that tag is asked for after all, the blank contents are found
as long as not every place is taken; every other answer is what reading would give. -/

namespace DualFuse.Library

/-- Places with their tags, and the place to be filled next. -/
structure RingCache (κ ν : Type) where
  slots : List (κ × ν)
  curr : ℕ

namespace RingCache

variable {κ ν : Type} [DecidableEq κ] (cap : ℕ) (read : κ → ν) (bad : κ) (blank : ν)

def lookup (c : RingCache κ ν) (k : κ) : Option ν := (c.slots.find? fun e => e.1 == k).map (·.2)

def add (c : RingCache κ ν) (k : κ) (v : ν) : RingCache κ ν :=
  let curr := if c.curr ≥ cap then 0 else c.curr
  ⟨c.slots.set curr (k, v), curr + 1⟩

def fetch (c : RingCache κ ν) (k : κ) : RingCache κ ν × ν :=
  match c.lookup k with
  | some v => (c, v)
  | none => (c.add cap k (read k), read k)

/-- No place is taken. -/
def empty : RingCache κ ν := ⟨List.replicate cap (bad, blank), 0⟩

/-- Every place has what reading its key gives. -/
def Right (c : RingCache κ ν) : Prop := ∀ e ∈ c.slots, e.2 = read e.1

/-- The first places are taken, by the keys in use. -/
structure Filling (c : RingCache κ ν) (used : Finset κ) (entries : List (κ × ν)) : Prop where
  slots : c.slots = entries ++ List.replicate (cap - entries.length) (bad, blank)
  room : entries.length < cap
  curr : c.curr = entries.length
  used : (entries.map Prod.fst).toFinset = used
  distinct : (entries.map Prod.fst).Nodup
  right : ∀ e ∈ entries, e.2 = read e.1

/-- After the keys in `used` were asked for. -/
def Holds (c : RingCache κ ν) (used : Finset κ) : Prop :=
  bad ∉ used ∧ ((∃ entries, Filling cap read bad blank c used entries) ∨ cap ≤ used.card ∧ c.Right read)

variable {cap read bad blank} {c : RingCache κ ν} {used : Finset κ} {entries : List (κ × ν)} {k : κ}

theorem Right.lookup (h : c.Right read) {v : ν} (hv : c.lookup k = some v) : v = read k := by
  obtain ⟨e, he, rfl⟩ := Option.map_eq_some_iff.mp hv
  have hkey : e.1 = k := by simpa using List.find?_some he
  rw [h e (List.mem_of_find?_eq_some he), hkey]

theorem Right.fetch (cap : ℕ) (h : c.Right read) (k : κ) :
    (c.fetch cap read k).1.Right read ∧ (c.fetch cap read k).2 = read k := by
  unfold RingCache.fetch
  cases hlookup : c.lookup k with
  | some v => exact ⟨h, h.lookup hlookup⟩
  | none =>
    refine ⟨fun e he => ?_, rfl⟩
    rcases List.mem_or_eq_of_mem_set he with hold | rfl
    · exact h e hold
    · rfl

namespace Filling

theorem card (h : Filling cap read bad blank c used entries) : used.card = entries.length := by
  rw [← h.used, List.toFinset_card_of_nodup h.distinct, List.length_map]

theorem mem_used (h : Filling cap read bad blank c used entries) : k ∈ used ↔ ∃ e ∈ entries, e.1 = k := by
  rw [← h.used, List.mem_toFinset, List.mem_map]

/-- What is found: a taken place, or the first blank one. -/
theorem lookup_eq (h : Filling cap read bad blank c used entries) (k : κ) :
    c.lookup k = if k ∈ used then some (read k) else if k = bad then some blank else none := by
  unfold lookup
  rw [h.slots, List.find?_append]
  split_ifs with hused heq
  · obtain ⟨e, he, hkey⟩ := h.mem_used.mp hused
    obtain ⟨e', hfind⟩ : ∃ e', entries.find? (fun e => e.1 == k) = some e' := by
      cases hfind : entries.find? (fun e => e.1 == k) with
      | none => exact absurd (beq_iff_eq.mpr hkey) (List.find?_eq_none.mp hfind e he)
      | some e' => exact ⟨e', rfl⟩
    have hkey' : e'.1 = k := by simpa using List.find?_some hfind
    rw [hfind, Option.some_or, Option.map_some, h.right e' (List.mem_of_find?_eq_some hfind), hkey']
  · have hnone : entries.find? (fun e => e.1 == k) = none :=
      List.find?_eq_none.mpr fun e he hkey => hused (h.mem_used.mpr ⟨e, he, beq_iff_eq.mp hkey⟩)
    have hroom : cap - entries.length = cap - entries.length - 1 + 1 := by
      have := h.room
      omega
    have hfirst : ((bad, blank) :: List.replicate (cap - entries.length - 1) (bad, blank)).find? (fun e => e.1 == k) =
        some (bad, blank) := List.find?_cons_of_pos (beq_iff_eq.mpr heq.symm)
    rw [hnone, Option.none_or, hroom, List.replicate_succ, hfirst]
    rfl
  · have hnone : entries.find? (fun e => e.1 == k) = none :=
      List.find?_eq_none.mpr fun e he hkey => hused (h.mem_used.mpr ⟨e, he, beq_iff_eq.mp hkey⟩)
    have hblank : (List.replicate (cap - entries.length) (bad, blank)).find? (fun e => e.1 == k) = none := by
      refine List.find?_eq_none.mpr fun e he hkey => heq ?_
      rw [List.eq_of_mem_replicate he] at hkey
      exact (beq_iff_eq.mp hkey).symm
    rw [hnone, hblank]
    rfl

/-- The next place is taken. -/
theorem add (h : Filling cap read bad blank c used entries) (hbad : bad ∉ used) (hk : k ∉ used) (hne : k ≠ bad) :
    Holds cap read bad blank (c.add cap k (read k)) (insert k used) := by
  have hroom := h.room
  have hcurr : (if c.curr ≥ cap then 0 else c.curr) = entries.length := by
    rw [if_neg (by rw [h.curr]; omega), h.curr]
  have hslots : c.slots.set entries.length (k, read k) =
      entries ++ [(k, read k)] ++ List.replicate (cap - (entries.length + 1)) (bad, blank) := by
    rw [h.slots, List.set_append_right _ _ le_rfl, Nat.sub_self,
      show cap - entries.length = cap - (entries.length + 1) + 1 by omega, List.replicate_succ]
    simp
  have hright : ∀ e ∈ entries ++ [(k, read k)], e.2 = read e.1 := by
    intro e he
    rcases List.mem_append.mp he with hold | hnew
    · exact h.right e hold
    · rw [List.mem_singleton.mp hnew]
  have hnot : bad ∉ insert k used := by
    rw [Finset.mem_insert, not_or]
    exact ⟨Ne.symm hne, hbad⟩
  refine ⟨hnot, ?_⟩
  by_cases hmore : entries.length + 1 < cap
  · refine Or.inl ⟨entries ++ [(k, read k)], ?_, ?_, ?_, ?_, ?_, hright⟩
    · simpa [RingCache.add, hcurr] using hslots
    · simpa using hmore
    · simp [RingCache.add, hcurr]
    · rw [List.map_append, List.toFinset_append, h.used, Finset.insert_eq, Finset.union_comm]
      rfl
    · rw [List.map_append, List.nodup_append]
      refine ⟨h.distinct, by simp, ?_⟩
      intro a ha b hb
      rw [List.mem_map] at ha
      obtain ⟨e, he, rfl⟩ := ha
      rw [List.map_singleton, List.mem_singleton] at hb
      rintro rfl
      exact hk (h.mem_used.mpr ⟨e, he, hb⟩)
  · refine Or.inr ⟨by rw [Finset.card_insert_of_notMem hk, h.card]; omega, fun e he => hright e ?_⟩
    rw [show (c.add cap k (read k)).slots = c.slots.set entries.length (k, read k) by simp [RingCache.add, hcurr],
      hslots, show cap - (entries.length + 1) = 0 by omega] at he
    simpa using he

end Filling

theorem holds_empty (hcap : 0 < cap) : Holds cap read bad blank (empty cap bad blank) ∅ :=
  ⟨Finset.notMem_empty bad, Or.inl ⟨[], rfl, hcap, rfl, rfl, List.nodup_nil, List.forall_mem_nil _⟩⟩

/-- A fetch gives what reading gives, except for the tag of the blank places while there are any. -/
theorem Holds.fetch (h : Holds cap read bad blank c used) (k : κ) :
    Holds cap read bad blank (c.fetch cap read k).1 (if k = bad then used else insert k used) ∧
      (c.fetch cap read k).2 = if k = bad ∧ used.card < cap then blank else read k := by
  obtain ⟨hbad, ⟨entries, hfilling⟩ | ⟨hfull, hright⟩⟩ := h
  · have hlookup := hfilling.lookup_eq k
    have hcard : used.card < cap := by
      rw [hfilling.card]
      exact hfilling.room
    unfold RingCache.fetch
    rw [hlookup]
    by_cases hused : k ∈ used
    · have hne : k ≠ bad := fun heq => hbad (heq ▸ hused)
      have hnot : ¬(k = bad ∧ used.card < cap) := fun hand => hne hand.1
      rw [if_pos hused, if_neg hne, if_neg hnot, Finset.insert_eq_of_mem hused]
      exact ⟨⟨hbad, Or.inl ⟨entries, hfilling⟩⟩, rfl⟩
    · rw [if_neg hused]
      by_cases heq : k = bad
      · rw [if_pos heq, if_pos heq, if_pos ⟨heq, hcard⟩]
        exact ⟨⟨hbad, Or.inl ⟨entries, hfilling⟩⟩, rfl⟩
      · have hnot : ¬(k = bad ∧ used.card < cap) := fun hand => heq hand.1
        rw [if_neg heq, if_neg heq, if_neg hnot]
        exact ⟨hfilling.add hbad hused heq, rfl⟩
  · obtain ⟨hright', hvalue⟩ := hright.fetch cap k
    have hnot : ¬(k = bad ∧ used.card < cap) := fun hand => absurd hand.2 (by omega)
    rw [hvalue, if_neg hnot]
    refine ⟨?_, rfl⟩
    split_ifs with heq
    · exact ⟨hbad, Or.inr ⟨hfull, hright'⟩⟩
    · refine ⟨?_, Or.inr ⟨hfull.trans (Finset.card_le_card (Finset.subset_insert k used)), hright'⟩⟩
      rw [Finset.mem_insert, not_or]
      exact ⟨fun hb => heq hb.symm, hbad⟩

end RingCache

end DualFuse.Library
