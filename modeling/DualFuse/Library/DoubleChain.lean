import DualFuse.Library.Chain

/-! Chains that are linked in both directions. Every node has a link to the next node and
one to the node before it; a piece of a chain begins behind a node `b` and ends in front
of a node `q`. A whole chain begins behind and ends in front of one sentinel. A node is
taken out of a chain by new links of its neighbours only, and a node comes to the front
by its own links and one of the node that was first. -/

namespace DualFuse.Library

universe u

variable {α : Type u}

/-- The nodes of `l` lead from `p` to `q`, and back from `e` to `b`. -/
def DoubleChain (next prev : α → Option α) : α → α → List α → α → α → Prop
  | b, p, [], e, q => p = q ∧ e = b
  | b, p, a :: l, e, q => p = a ∧ prev a = some b ∧ ∃ r, next a = some r ∧ DoubleChain next prev a r l e q

namespace DoubleChain

variable {next prev next' prev' : α → Option α} {b b' p e q a r z : α} {l l' : List α}

theorem append_iff : DoubleChain next prev b p (l ++ l') e q ↔
    ∃ m r, DoubleChain next prev b p l m r ∧ DoubleChain next prev m r l' e q := by
  induction l generalizing b p with
  | nil =>
    constructor
    · exact fun h => ⟨b, p, ⟨rfl, rfl⟩, h⟩
    · rintro ⟨m, r, ⟨rfl, rfl⟩, h⟩
      exact h
  | cons a l ih =>
    constructor
    · rintro ⟨rfl, hprev, s, hs, h⟩
      obtain ⟨m, r, hl, hl'⟩ := ih.mp h
      exact ⟨m, r, ⟨rfl, hprev, s, hs, hl⟩, hl'⟩
    · rintro ⟨m, r, ⟨rfl, hprev, s, hs, hl⟩, hl'⟩
      exact ⟨rfl, hprev, s, hs, ih.mpr ⟨m, r, hl, hl'⟩⟩

/-- The links forward are a path. -/
theorem path (h : DoubleChain next prev b p l e q) : Path next p l q := by
  induction l generalizing b p with
  | nil => exact h.1
  | cons a l ih =>
    obtain ⟨rfl, -, r, hr, h⟩ := h
    exact ⟨rfl, r, hr, ih h⟩

theorem end_eq (h : DoubleChain next prev b p l e q) : e = l.getLastD b := by
  induction l generalizing b p with
  | nil => exact h.2
  | cons a l ih =>
    obtain ⟨rfl, -, r, -, h⟩ := h
    rw [List.getLastD_cons, ih h]

/-- A node leads to the one behind it, and back to the one before it. -/
theorem neighbours (h : DoubleChain next prev b p (l ++ a :: l') e q) :
    prev a = some (l.getLastD b) ∧ next a = some (l'.headD q) := by
  obtain ⟨m, t, hl, rfl, hprev, r, hr, hl'⟩ := append_iff.mp h
  rw [hprev, hr, hl.end_eq, hl'.path.eq_headD]
  exact ⟨rfl, rfl⟩

/-- A chain depends on the links of its nodes only. -/
theorem congr (h : DoubleChain next prev b p l e q) (hnext : ∀ a ∈ l, next' a = next a)
    (hprev : ∀ a ∈ l, prev' a = prev a) : DoubleChain next' prev' b p l e q := by
  induction l generalizing b p with
  | nil => exact h
  | cons a l ih =>
    obtain ⟨rfl, hb, r, hr, h⟩ := h
    have hrest := ih h (fun x hx => hnext x (List.mem_cons_of_mem _ hx))
      (fun x hx => hprev x (List.mem_cons_of_mem _ hx))
    exact ⟨rfl, (hprev p List.mem_cons_self).trans hb, r, (hnext p List.mem_cons_self).trans hr, hrest⟩

/-- The last node leads elsewhere. -/
theorem redirect (h : DoubleChain next prev b p (l ++ [a]) e q) (hr : next' a = some r)
    (hnext : ∀ x ∈ l, next' x = next x) (hprev : ∀ x ∈ l ++ [a], prev' x = prev x) :
    DoubleChain next' prev' b p (l ++ [a]) a r := by
  obtain ⟨m, t, hl, rfl, hm, -⟩ := append_iff.mp h
  have hfront := hl.congr hnext fun x hx => hprev x (List.mem_append_left _ hx)
  exact append_iff.mpr ⟨m, t, hfront, rfl, (hprev t (by simp)).trans hm, r, hr, rfl, rfl⟩

/-- The first node leads back elsewhere. -/
theorem rehead (h : DoubleChain next prev b p (a :: l) e q) (hb : prev' a = some b')
    (hnext : ∀ x ∈ a :: l, next' x = next x) (hprev : ∀ x ∈ l, prev' x = prev x) :
    DoubleChain next' prev' b' p (a :: l) e q := by
  obtain ⟨rfl, -, r, hr, h⟩ := h
  have hrest := h.congr (fun x hx => hnext x (List.mem_cons_of_mem _ hx)) hprev
  exact ⟨rfl, hb, r, (hnext p List.mem_cons_self).trans hr, hrest⟩

/-- A node comes to the front. -/
theorem push_front (h : DoubleChain next prev b p l e q) (ha : next' a = some p) (hb : prev' a = some b)
    (hfirst : ∀ x ∈ l.head?, prev' x = some a) (hnext : ∀ x ∈ l, next' x = next x)
    (hprev : ∀ x ∈ l.tail, prev' x = prev x) : ∃ e', DoubleChain next' prev' b a (a :: l) e' q := by
  cases l with
  | nil => exact ⟨a, rfl, hb, p, ha, h.1, rfl⟩
  | cons x l => exact ⟨e, rfl, hb, p, ha, h.rehead (hfirst x rfl) hnext hprev⟩

/-- A node that is not the first is taken out: its neighbours lead to each other. -/
theorem unlink (h : DoubleChain next prev z p (l ++ a :: l') e z) (hl : l ≠ []) (hnodup : (l ++ a :: l').Nodup)
    (hz : z ∉ l ++ a :: l') (hbefore : ∀ m ∈ prev a, m ≠ z → next' m = next a)
    (hafter : ∀ r ∈ next a, r ≠ z → prev' r = prev a) (hnext : ∀ x ∈ l ++ l', prev a ≠ some x → next' x = next x)
    (hprev : ∀ x ∈ l ++ l', next a ≠ some x → prev' x = prev x) :
    ∃ e', DoubleChain next' prev' z p (l ++ l') e' z := by
  obtain ⟨l, m, rfl⟩ := (List.eq_nil_or_concat l).resolve_left hl
  rw [List.concat_eq_append] at *
  obtain ⟨m', a', hfront, rfl, hm, r, hr, hback⟩ := append_iff.mp h
  obtain rfl : m' = m := by rw [hfront.end_eq, List.getLastD_concat]
  have hnot : ∀ x ∈ l ++ [m'], x ≠ r := by
    rintro x hx rfl
    cases l' with
    | nil => exact hz (hback.1 ▸ List.mem_append_left _ hx)
    | cons y l' =>
      obtain ⟨rfl, -⟩ := hback
      simp only [List.nodup_append, List.mem_cons] at hnodup
      exact hnodup.2.2 x hx x (by simp) rfl
  have hlast : m' ∉ l ∧ m' ∉ l' := by
    simp only [List.nodup_append, List.nodup_cons, List.mem_cons, List.mem_append] at hnodup
    grind
  have hmz : m' ≠ z := by
    rintro rfl
    exact hz (by simp)
  have hfront' : DoubleChain next' prev' z p (l ++ [m']) m' r := by
    refine hfront.redirect ((hbefore m' hm hmz).trans hr) (fun x hx => hnext x (by simp [hx]) ?_)
      (fun x hx => hprev x (List.mem_append_left _ hx) ?_)
    · rw [hm]
      rintro heq
      exact hlast.1 (Option.some.inj heq ▸ hx)
    · rw [hr]
      rintro heq
      exact hnot x hx (Option.some.inj heq).symm
  cases l' with
  | nil =>
    obtain ⟨rfl, -⟩ := hback
    exact ⟨m', append_iff.mpr ⟨m', r, hfront', rfl, rfl⟩⟩
  | cons y l' =>
    obtain rfl : r = y := hback.1
    refine ⟨e, append_iff.mpr ⟨m', r, hfront', hback.rehead ?_ (fun x hx => hnext x (by simp [hx]) ?_)
      (fun x hx => hprev x (by simp [hx]) ?_)⟩⟩
    · refine (hafter r hr ?_).trans hm
      rintro rfl
      exact hz (by simp)
    · rw [hm]
      rintro heq
      exact hlast.2 (Option.some.inj heq ▸ hx)
    · rw [hr]
      rintro heq
      simp only [List.nodup_append, List.nodup_cons] at hnodup
      exact hnodup.2.1.2.1 (Option.some.inj heq ▸ hx)

/-- A node that is not the first comes to the front. First it leads to the front and back to
the sentinel, then its neighbours lead to each other, and the node that was first leads back
to it. -/
theorem move_front [DecidableEq α] {m : α} (h : DoubleChain next prev z p (l ++ a :: l') e z) (hl : l ≠ [])
    (hnodup : (l ++ a :: l').Nodup) (hz : z ∉ l ++ a :: l') (hm : prev a = some m) (hr : next a = some r) :
    ∃ e', DoubleChain (Function.update (Function.update next a (some p)) m (some r))
      (Function.update (if r ≠ z then Function.update (Function.update prev a (some z)) r (some m)
        else Function.update prev a (some z)) p (some a)) z a (a :: (l ++ l')) e' z := by
  have hne : ∀ x ∈ l ++ l', x ≠ a := by
    rintro x hx rfl
    simp only [List.nodup_append, List.nodup_cons, List.mem_cons] at hnodup
    rcases List.mem_append.mp hx with hx | hx
    · exact hnodup.2.2 x hx x (.inl rfl) rfl
    · exact hnodup.2.1.1 hx
  obtain ⟨x, l, rfl⟩ := List.exists_cons_of_ne_nil hl
  obtain rfl : p = x := h.1
  have hma : m ≠ a := by
    obtain rfl := Option.some.inj (hm.symm.trans h.neighbours.1)
    exact hne _ (List.mem_append_left _ (by rw [List.getLastD_cons]; exact List.getLastD_mem_cons))
  have hra : r ≠ a := by
    obtain rfl := Option.some.inj (hr.symm.trans h.neighbours.2)
    cases l' with
    | nil =>
      rintro rfl
      exact hz (by simp)
    | cons y l' => exact hne y (by simp)
  obtain ⟨e', hrest⟩ : ∃ e', DoubleChain (Function.update next m (some r))
      (if r ≠ z then Function.update prev r (some m) else prev) z p (p :: l ++ l') e' z :=
    h.unlink hl hnodup hz (by grind) (by grind) (by grind) (by grind)
  have hpa : p ≠ a := hne p (by simp)
  refine hrest.push_front ?_ ?_ ?_ ?_ ?_
  · rw [Function.update_of_ne hma.symm, Function.update_self]
  · rw [Function.update_of_ne hpa.symm]
    split_ifs
    · rw [Function.update_of_ne hra.symm, Function.update_self]
    · exact Function.update_self _ _ _
  · rintro x hx
    obtain rfl : p = x := Option.some.inj hx
    exact Function.update_self _ _ _
  · intro x hx
    have hxa := hne x hx
    simp only [Function.update_apply]
    grind
  · intro x hx
    have hxa := hne x (List.mem_of_mem_tail hx)
    have hxp : x ≠ p := by
      rintro rfl
      apply (List.nodup_cons.mp hnodup).1
      rcases List.mem_append.mp hx with hx | hx
      · exact List.mem_append_left _ hx
      · exact List.mem_append_right _ (List.mem_cons_of_mem _ hx)
    rw [Function.update_of_ne hxp]
    split_ifs
    · simp only [Function.update_apply, if_neg hxa]
    · exact Function.update_of_ne hxa _ _

end DoubleChain

end DualFuse.Library
