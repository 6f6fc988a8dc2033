import DualFuse.Memory.LiballocBlocks

/-! `free`: a block melts into the free blocks at its sides, and a region that is free as a
whole may go back to the frames. The counters of whole regions bound how many of them stand
in a list; so a region that is too large for the byte count of `physical_free` never goes
back, since two more of its kind do not fit below 4 GiB. -/

namespace DualFuse.Memory

open Library Utility

namespace Liballoc

/-- The block is a region of its own. -/
def whole (h : Liballoc) (t : ℕ) : Bool := decide ((h.tags t).splitLeft = 0 ∧ (h.tags t).splitRight = 0)

/-- No more whole regions are counted than stand in the list. -/
def Complete (h : Liballoc) : Prop := ∀ i, h.completePages i ≤ ((h.freePages i).countP h.whole : ℕ)

section Complete
variable {h : Liballoc} {t : ℕ}

theorem whole_congr {h' : Liballoc} (hleft : (h'.tags t).splitLeft = (h.tags t).splitLeft)
    (hright : (h'.tags t).splitRight = (h.tags t).splitRight) : h'.whole t = h.whole t := by
  unfold whole
  rw [hleft, hright]

theorem whole_eq_false_of_left (hleft : (h.tags t).splitLeft ≠ 0) : h.whole t = false :=
  decide_eq_false fun hboth => hleft hboth.1

theorem whole_eq_false_of_right (hright : (h.tags t).splitRight ≠ 0) : h.whole t = false :=
  decide_eq_false fun hboth => hright hboth.2

theorem setIndex_whole (i : ℤ) : (h.setTag t { h.tags t with index := i }).whole = h.whole := by
  funext u
  apply whole_congr
  · rw [setIndex_tags]
  · rw [setIndex_tags]

theorem Complete.congr {h' : Liballoc} (hc : h.Complete) (hcount : h'.completePages = h.completePages)
    (hpages : h'.freePages = h.freePages) (hwhole : ∀ i, ∀ t ∈ h.freePages i, h'.whole t = h.whole t) :
    h'.Complete := by
  intro i
  rw [hcount, hpages, List.countP_congr fun t ht => by rw [hwhole i t ht]]
  exact hc i

/-- A tag that is taken from its list; the counter goes down with a whole region. -/
theorem Complete.removeTag (hc : h.Complete) (ht : t ∈ h.freePages (h.tags t).index) (count : ℤ → ℤ)
    (hcount : ∀ i, count i + (if i = (h.tags t).index ∧ h.whole t then 1 else 0) ≤ h.completePages i) :
    Complete { h.removeTag t with completePages := count } := by
  intro i
  have hwhole : Liballoc.whole { h.removeTag t with completePages := count } = h.whole := setIndex_whole (-1)
  have hbound := (hcount i).trans (hc i)
  rw [hwhole]
  change count i ≤ ((Function.update h.freePages (h.tags t).index _ i).countP h.whole : ℕ)
  rcases eq_or_ne i (h.tags t).index with rfl | hne
  · rw [Function.update_self, List.countP_erase]
    have hpos : h.whole t → 1 ≤ (h.freePages (h.tags t).index).countP h.whole := fun hw =>
      List.countP_pos_iff.mpr ⟨t, ht, hw⟩
    split_ifs at hbound ⊢ <;> grind
  · rw [Function.update_of_ne hne]
    rwa [if_neg fun hboth => hne hboth.1, add_zero] at hbound

/-- A tag that goes to a list; the counter goes up with a whole region only. -/
theorem Complete.insertTag (hc : h.Complete) (count : ℤ → ℤ) {index : ℤ}
    (hcount : ∀ i, count i ≤ h.completePages i + if i = h.realIndex t index ∧ h.whole t then 1 else 0) :
    Complete (Liballoc.insertTag { h with completePages := count } t index) := by
  intro i
  have hwhole : (Liballoc.insertTag { h with completePages := count } t index).whole = h.whole := setIndex_whole _
  have hbound := (hcount i).trans (add_le_add_left (hc i) _)
  rw [hwhole]
  change count i ≤ ((Function.update h.freePages (h.realIndex t index) (t :: h.freePages (h.realIndex t index))
    i).countP h.whole : ℕ)
  rcases eq_or_ne i (h.realIndex t index) with rfl | hne
  · rw [Function.update_self, List.countP_cons]
    simp only [true_and] at hbound
    split_ifs at hbound ⊢ <;> push_cast <;> exact hbound
  · rw [Function.update_of_ne hne]
    rwa [if_neg fun hboth => hne hboth.1, add_zero] at hbound

end Complete

/-! ### Melting -/

section Melt
variable {hhdmOffset : ℕ} {h : Liballoc} {region : ℕ → ℕ × ℕ} {T held : Set ℕ} {l r t : ℕ}

theorem merge_tags_self (hne : r ≠ l) (hnext : (h.tags r).splitRight ≠ l) :
    (h.merge l r).tags l = { h.tags l with
      realSize := wrap32 ((h.tags l).realSize + (h.tags r).realSize)
      splitRight := (h.tags r).splitRight } := by
  unfold merge
  dsimp only
  rw [setTag_tags_of_ne hne, setSplitLeft_tags, if_neg fun hboth => hnext hboth.2.symm, setTag_tags_self]

theorem merge_tags_of_ne {u : ℕ} (hne : r ≠ l) (hu : u ≠ l) :
    (h.merge l r).tags u = if (h.tags r).splitRight ≠ 0 ∧ u = (h.tags r).splitRight then
      { h.tags u with splitLeft := l } else h.tags u := by
  unfold merge
  dsimp only
  rw [setTag_tags_of_ne hne, setSplitLeft_tags, setTag_tags_of_ne hu]

theorem merge_completePages : (h.merge l r).completePages = h.completePages := by
  unfold merge setSplitLeft
  dsimp only
  split_ifs <;> rfl

/-- A block may as well leave its list before it takes in its neighbour. -/
theorem merge_removeTag (hne : r ≠ l) (hnext : (h.tags r).splitRight ≠ l) :
    (h.merge l r).removeTag l = (h.removeTag l).merge l r := by
  have hself : (h.removeTag l).tags l = { h.tags l with index := -1 } := setTag_tags_self
  have hother : ∀ u, u ≠ l → (h.removeTag l).tags u = h.tags u := fun u hu => setTag_tags_of_ne hu
  have hnext' : ((h.removeTag l).tags r).splitRight ≠ l := by rwa [hother r hne]
  apply Liballoc.ext
  · funext u
    rcases eq_or_ne u l with rfl | hu
    · rw [merge_tags_self hne hnext', hself, hother r hne]
      exact (setTag_tags_self).trans (by rw [merge_tags_self hne hnext])
    · rw [merge_tags_of_ne hne hu, hother r hne, hother u hu, ← merge_tags_of_ne hne hu]
      exact setTag_tags_of_ne hu
  · have hindex : ((h.merge l r).tags l).index = (h.tags l).index := (merge_index hne l).1
    rw [merge_freePages]
    unfold Liballoc.removeTag
    dsimp only
    rw [hindex, merge_freePages]
  · rw [merge_completePages]
    exact merge_completePages
  · rw [merge_frames]
    exact merge_frames

/-- Neighbours, in terms of the tags. -/
theorem Inv.right_eq (hinv : h.Inv hhdmOffset region T held) (ht : t ∈ T) (hne : (h.tags t).splitRight ≠ 0) :
    (h.tags t).splitRight ∈ T ∧ (h.tags t).splitRight = t + (h.tags t).realSize ∧
      (h.tags (h.tags t).splitRight).splitLeft = t :=
  hinv.linked.right t ht hne

theorem Inv.left_eq (hinv : h.Inv hhdmOffset region T held) (ht : t ∈ T) (hne : (h.tags t).splitLeft ≠ 0) :
    (h.tags t).splitLeft ∈ T ∧ (h.tags (h.tags t).splitLeft).splitRight = t :=
  hinv.linked.left t ht hne

/-- The right neighbour of the right neighbour is another block. -/
theorem Inv.next_ne (hinv : h.Inv hhdmOffset region T held) (hl : l ∈ T) (hr : r ∈ T)
    (hadjacent : (h.tags l).splitRight = r) : r ≠ l ∧ (h.tags r).splitRight ≠ l := by
  have hlpos := hinv.linked.pos l hl
  have hrpos := hinv.linked.pos r hr
  have hright := (hinv.right_eq hl (by omega)).2.1
  have hleast := (hinv.range hl).2.1
  have htag : 0 < tagSize := by decide
  refine ⟨by omega, fun hback => ?_⟩
  have hnext := (hinv.right_eq hr (by omega)).2.1
  omega

theorem Complete.merge (hc : h.Complete) (hinv : h.Inv hhdmOffset region T held) (hl : l ∈ held) (hr : r ∈ held)
    (hadjacent : (h.tags l).splitRight = r) : (h.merge l r).Complete := by
  have hlT := hinv.held_subset hl
  have hrT := hinv.held_subset hr
  obtain ⟨hne, -⟩ := hinv.next_ne hlT hrT hadjacent
  refine hc.congr merge_completePages merge_freePages fun i u hu => ?_
  have hul : u ≠ l := fun heq => ((hinv.lists.mem_iff u i).mp hu).2.1 (heq ▸ hl)
  have htags := merge_tags_of_ne (h := h) hne hul
  by_cases hsame : (h.tags r).splitRight ≠ 0 ∧ u = (h.tags r).splitRight
  · rw [if_pos hsame] at htags
    have hback : (h.tags u).splitLeft = r := hsame.2 ▸ (hinv.right_eq hrT hsame.1).2.2
    have hlpos := hinv.linked.pos l hlT
    have hrpos := hinv.linked.pos r hrT
    rw [whole_eq_false_of_left (t := u) (h := h) (by rw [hback]; omega), whole_eq_false_of_left]
    rw [htags]
    dsimp only
    omega
  · rw [if_neg hsame] at htags
    exact whole_congr (by rw [htags]) (by rw [htags])

/-- The requested and the real sizes of blocks stay. -/
def Keeps (h h' : Liballoc) (K : Set ℕ) : Prop :=
  ∀ u ∈ K, (h'.tags u).size = (h.tags u).size ∧ (h'.tags u).realSize = (h.tags u).realSize

theorem Keeps.trans {h₁ h₂ h₃ : Liballoc} {K : Set ℕ} (h₁₂ : h₁.Keeps h₂ K) (h₂₃ : h₂.Keeps h₃ K) :
    h₁.Keeps h₃ K := fun u hu =>
  ⟨(h₂₃ u hu).1.trans (h₁₂ u hu).1, (h₂₃ u hu).2.trans (h₁₂ u hu).2⟩

theorem keeps_removeTag (K : Set ℕ) : h.Keeps (h.removeTag t) K := fun u _ =>
  ⟨(congrArg BoundaryTag.size (setIndex_tags (h := h) (t := t) (-1) u) :),
    (congrArg BoundaryTag.realSize (setIndex_tags (h := h) (t := t) (-1) u) :)⟩

theorem keeps_merge {K : Set ℕ} (hne : r ≠ l) (hl : l ∉ K) : h.Keeps (h.merge l r) K := by
  intro u hu
  refine ⟨(merge_index hne u).2.2, ?_⟩
  rw [merge_tags_of_ne hne fun heq => hl (heq ▸ hu)]
  split_ifs <;> rfl

/-- A free block has an index, a held one has none. -/
theorem Inv.not_held (hinv : h.Inv hhdmOffset region T held) (hfree : 0 ≤ (h.tags t).index) : t ∉ held := by
  intro ht
  have := hinv.held_index t ht
  omega

variable {K : Set ℕ}

/-- A free tag and a held one next to it become one held block. -/
theorem Inv.take_merge (hinv : h.Inv hhdmOffset region T held) (hc : h.Complete) {f : ℕ} (hf : f ∈ T)
    (hfree : f ∉ held) (hnot : h.whole f = false) (hl : l ∈ insert f held) (hr : r ∈ insert f held)
    (hadjacent : (h.tags l).splitRight = r) :
    ((h.removeTag f).merge l r).Inv hhdmOffset region (T \ {r}) (insert f held \ {r}) ∧
      ((h.removeTag f).merge l r).Complete ∧ ∀ K : Set ℕ, l ∉ K → h.Keeps ((h.removeTag f).merge l r) K := by
  have hremoved := hinv.removeTag hf hfree
  have hlink : ((h.removeTag f).tags l).splitRight = r :=
    (congrArg BoundaryTag.splitRight (setIndex_tags (h := h) (t := f) (-1) l) :).trans hadjacent
  have hrT := hremoved.held_subset hr
  have hrpos := hinv.linked.pos r hrT
  obtain ⟨hne, -⟩ := hremoved.next_ne (hremoved.held_subset hl) hrT hlink
  have hcomplete : (h.removeTag f).Complete := by
    refine hc.removeTag ((hinv.lists.mem_iff f _).mpr ⟨hf, hfree, rfl⟩) h.completePages fun i => ?_
    rw [hnot, if_neg fun hboth => Bool.false_ne_true hboth.2, add_zero]
  refine ⟨hremoved.merge hl hlink.symm hrpos.ne' hr, hcomplete.merge hremoved hl hr hlink, fun K hlK => ?_⟩
  exact (keeps_removeTag K).trans (keeps_merge hne hlK)

theorem Inv.meltLeft (hinv : h.Inv hhdmOffset region T (insert t K)) (hc : h.Complete) (ht : t ∉ K)
    (hne : (h.tags t).splitLeft ≠ 0) (hfree : 0 ≤ (h.tags (h.tags t).splitLeft).index) :
    ((h.meltLeft t).1.removeTag (h.tags t).splitLeft).Inv hhdmOffset region (T \ {t})
        (insert (h.tags t).splitLeft K) ∧
      ((h.meltLeft t).1.removeTag (h.tags t).splitLeft).Complete ∧ (h.tags t).splitLeft ∉ K ∧
      (h.tags t).splitLeft < t ∧ h.Keeps ((h.meltLeft t).1.removeTag (h.tags t).splitLeft) K := by
  have htT := hinv.held_subset (Set.mem_insert t K)
  have hpos := hinv.linked.pos t htT
  obtain ⟨hlT, hadjacent⟩ := hinv.left_eq htT hne
  have hlheld := hinv.not_held hfree
  obtain ⟨l, hl⟩ : ∃ l, l = (h.tags t).splitLeft := ⟨_, rfl⟩
  rw [meltLeft_eq]
  dsimp only
  rw [← hl] at hne hfree hlT hadjacent hlheld ⊢
  obtain ⟨hrne, hnext⟩ := hinv.next_ne hlT htT hadjacent
  obtain ⟨hinv', hc', hkeeps⟩ := hinv.take_merge hc hlT hlheld (whole_eq_false_of_right (by omega))
    (Set.mem_insert l _) (Set.mem_insert_of_mem l (Set.mem_insert t K)) hadjacent
  rw [Set.mem_insert_iff, not_or] at hlheld
  rw [merge_removeTag hrne hnext]
  refine ⟨?_, hc', hlheld.2, ?_, hkeeps K hlheld.2⟩
  · have htnot : t ∉ insert l K := fun hmem => hmem.elim hrne ht
    rwa [Set.insert_comm, Set.insert_sdiff_self_of_notMem htnot] at hinv'
  · have hright := (hinv.right_eq hlT (by omega)).2.1
    have hleast := (hinv.range hlT).2.1
    have htag : 0 < tagSize := by decide
    omega

theorem Inv.absorbRight (hinv : h.Inv hhdmOffset region T (insert t K)) (hc : h.Complete) (ht : t ∉ K)
    (hne : (h.tags t).splitRight ≠ 0) (hfree : 0 ≤ (h.tags (h.tags t).splitRight).index) :
    (h.absorbRight t).Inv hhdmOffset region (T \ {(h.tags t).splitRight}) (insert t K) ∧
      (h.absorbRight t).Complete ∧ (h.tags t).realSize < ((h.absorbRight t).tags t).realSize ∧
      h.Keeps (h.absorbRight t) K := by
  have htT := hinv.held_subset (Set.mem_insert t K)
  obtain ⟨hrT, heq, hback⟩ := hinv.right_eq htT hne
  have hrheld := hinv.not_held hfree
  rw [absorbRight_eq]
  obtain ⟨r, hr⟩ : ∃ r, r = (h.tags t).splitRight := ⟨_, rfl⟩
  rw [← hr] at hne hfree hrT heq hback hrheld ⊢
  have hpos := hinv.linked.pos t htT
  obtain ⟨hinv', hc', hkeeps⟩ := hinv.take_merge hc hrT hrheld (whole_eq_false_of_left (by omega))
    (Set.mem_insert_of_mem r (Set.mem_insert t K)) (Set.mem_insert r _) hr.symm
  rw [Set.insert_sdiff_self_of_notMem hrheld] at hinv'
  refine ⟨hinv', hc', ?_, hkeeps K ht⟩
  have hlink : ((h.removeTag r).tags t).splitRight = r :=
    (congrArg BoundaryTag.splitRight (setIndex_tags (h := h) (t := r) (-1) t) :).trans hr.symm
  have hremoved := hinv.removeTag hrT hrheld
  obtain ⟨hrne, hnext⟩ := hremoved.next_ne htT hrT hlink
  have hkept := keeps_removeTag (h := h) (t := r) Set.univ
  rw [merge_tags_self hrne hnext, (hkept t trivial).2, (hkept r trivial).2, wrap32, Nat.mod_eq_of_lt]
  · have hleast := (hinv.range hrT).2.1
    have htag : 0 < tagSize := by decide
    exact Nat.lt_add_of_pos_right (by omega)
  · have hlow := (hinv.range htT).1
    have hhigh := (hinv.range hrT).2.2
    unfold liballocPageSize at hlow
    omega

/-- Each turn goes to a lower address, so the turns suffice. -/
theorem Inv.meltLeftAll {n : ℕ} (hn : t < n) (hinv : h.Inv hhdmOffset region T (insert t K)) (hc : h.Complete)
    (ht : t ∉ K) :
    ∃ h' t' T', h.meltLeftAll t n = .ok (h', t') ∧ h'.Inv hhdmOffset region T' (insert t' K) ∧ h'.Complete ∧
      t' ∉ K ∧ h.Keeps h' K := by
  induction n generalizing h t T with
  | zero => exact absurd hn (Nat.not_lt_zero t)
  | succ n ih =>
    rw [Liballoc.meltLeftAll]
    by_cases hleft : (h.tags t).splitLeft ≠ 0 ∧ (h.tags (h.tags t).splitLeft).index ≥ 0
    · rw [if_pos hleft]
      obtain ⟨hinv', hc', hnot, hlt, hkeeps⟩ := hinv.meltLeft hc ht hleft.1 hleft.2
      obtain ⟨h', t', T', heq, hinv'', hc'', hnot', hkeeps'⟩ := ih (by omega) hinv' hc' hnot
      exact ⟨h', t', T', heq, hinv'', hc'', hnot', hkeeps.trans hkeeps'⟩
    · rw [if_neg hleft]
      exact ⟨h, t, T, rfl, hinv, hc, ht, fun u _ => ⟨rfl, rfl⟩⟩

/-- Each turn makes the block larger, and it stays below 4 GiB. -/
theorem Inv.absorbRightAll {n : ℕ} (hn : 2 ^ 32 < n + (h.tags t).realSize)
    (hinv : h.Inv hhdmOffset region T (insert t K)) (hc : h.Complete) (ht : t ∉ K) :
    ∃ h' T', h.absorbRightAll t n = .ok h' ∧ h'.Inv hhdmOffset region T' (insert t K) ∧ h'.Complete ∧
      h.Keeps h' K := by
  induction n generalizing h T with
  | zero =>
    obtain ⟨hlow, -, hhigh⟩ := hinv.range (hinv.held_subset (Set.mem_insert t K))
    omega
  | succ n ih =>
    rw [Liballoc.absorbRightAll]
    by_cases hright : (h.tags t).splitRight ≠ 0 ∧ (h.tags (h.tags t).splitRight).index ≥ 0
    · rw [if_pos hright]
      obtain ⟨hinv', hc', hlt, hkeeps⟩ := hinv.absorbRight hc ht hright.1 hright.2
      obtain ⟨h', T', heq, hinv'', hc'', hkeeps'⟩ := ih (by omega) hinv' hc'
      exact ⟨h', T', heq, hinv'', hc'', hkeeps.trans hkeeps'⟩
    · rw [if_neg hright]
      exact ⟨h, T, rfl, hinv, hc, fun u _ => ⟨rfl, rfl⟩⟩

end Melt

/-! ### Whole regions -/

section GiveBack
variable {hhdmOffset : ℕ} {h : Liballoc} {region : ℕ → ℕ × ℕ} {T K : Set ℕ} {t : ℕ}

/-- The list that a tag belongs to. -/
theorem realIndex_eq (h : Liballoc) (t : ℕ) :
    h.realIndex t (-1) = max (getexp (sub32 (h.tags t).realSize tagSize)) minExp := if_pos (by decide)

theorem Inv.sub32_tagSize (hinv : h.Inv hhdmOffset region T K) (ht : t ∈ T) :
    sub32 (h.tags t).realSize tagSize = (h.tags t).realSize - tagSize := by
  obtain ⟨hlow, hleast, hhigh⟩ := hinv.range ht
  unfold sub32 wrap32 liballocPageSize at *
  omega

/-- Two blocks of at least a gibibyte leave no room for one of two below 4 GiB. -/
theorem Inv.small_of_complete (hinv : h.Inv hhdmOffset region T (insert t K)) (hc : h.Complete)
    (hfull : h.completePages (h.realIndex t (-1)) = maxComplete) : (h.tags t).realSize < 2 ^ 31 := by
  by_contra hlarge
  rw [not_lt] at hlarge
  have htT := hinv.held_subset (Set.mem_insert t K)
  have hindex : (30 : ℤ) ≤ h.realIndex t (-1) := by
    rw [realIndex_eq, hinv.sub32_tagSize htT]
    apply le_max_of_le_left
    apply (le_getexp_iff (j := 30) (by decide) (by decide)).mpr
    unfold tagSize
    omega
  have hcount := hc (h.realIndex t (-1))
  rw [hfull] at hcount
  have hlength : 2 ≤ (h.freePages (h.realIndex t (-1))).length := by
    have := List.countP_le_length (p := h.whole) (l := h.freePages (h.realIndex t (-1)))
    unfold maxComplete at hcount
    omega
  have hsize : ∀ u ∈ h.freePages (h.realIndex t (-1)), u ∈ T ∧ u ≠ t ∧ 2 ^ 30 ≤ (h.tags u).realSize := by
    intro u hu
    obtain ⟨huT, hnot, heq⟩ := (hinv.lists.mem_iff u _).mp hu
    refine ⟨huT, fun hut => hnot (hut ▸ Set.mem_insert t K), ?_⟩
    have hle : (30 : ℤ) ≤ h.realIndex u (-1) := by
      rw [← hinv.lists.index_eq u huT hnot, heq]
      exact hindex
    rw [realIndex_eq, hinv.sub32_tagSize huT, le_max_iff] at hle
    have hpow := (le_getexp_iff (j := 30) (by decide) (by decide)).mp (hle.resolve_right (by decide))
    omega
  obtain ⟨u, v, huv, hu, hv⟩ : ∃ u v, u ≠ v ∧ u ∈ h.freePages (h.realIndex t (-1)) ∧
      v ∈ h.freePages (h.realIndex t (-1)) := by
    have hnodup := hinv.lists.nodup (h.realIndex t (-1))
    cases hlist : h.freePages (h.realIndex t (-1)) with
    | nil => simp [hlist] at hlength
    | cons u rest =>
      cases rest with
      | nil => simp [hlist] at hlength
      | cons v rest =>
        rw [hlist] at hnodup
        exact ⟨u, v, fun heq => (List.nodup_cons.mp hnodup).1 (heq ▸ List.mem_cons_self), List.mem_cons_self,
          List.mem_cons_of_mem _ List.mem_cons_self⟩
  obtain ⟨huT, hut, husize⟩ := hsize u hu
  obtain ⟨hvT, hvt, hvsize⟩ := hsize v hv
  have hu := hinv.range huT
  have hv := hinv.range hvT
  have ht := hinv.range htT
  have h₁ : u + (h.tags u).realSize ≤ v ∨ v + (h.tags v).realSize ≤ u := hinv.linked.apart u huT v hvT huv
  have h₂ : u + (h.tags u).realSize ≤ t ∨ t + (h.tags t).realSize ≤ u := hinv.linked.apart u huT t htT hut
  have h₃ : v + (h.tags v).realSize ≤ t ∨ t + (h.tags t).realSize ≤ v := hinv.linked.apart v hvT t htT hvt
  unfold liballocPageSize at *
  omega

/-- A block that is a whole region. -/
theorem Inv.whole_region (hinv : h.Inv hhdmOffset region T (insert t K)) (hleft : (h.tags t).splitLeft = 0)
    (hright : (h.tags t).splitRight = 0) :
    (t - hhdmOffset) % liballocPageSize = 0 ∧ (h.tags t).realSize % liballocPageSize = 0 ∧
      liballocPageCount * liballocPageSize ≤ (h.tags t).realSize := by
  have htT := hinv.held_subset (Set.mem_insert t K)
  have hstart : t = (region t).1 := hinv.linked.start t htT hleft
  have hstop : t + (h.tags t).realSize = (region t).2 := hinv.linked.stop t htT hright
  obtain ⟨-, hfirst, hlength, hleast⟩ := hinv.regions t htT
  rw [← hstart] at hfirst hlength hleast
  rw [← hstop, Nat.add_sub_cancel_left] at hlength hleast
  exact ⟨hfirst, hlength, hleast⟩

/-- The frames of a whole region are no longer in use. -/
theorem Inv.liballocFree (hinv : h.Inv hhdmOffset region T (insert t K)) (hd : Aligned hhdmOffset) (ht : t ∉ K)
    (hp : h.frames.Physical) (hleft : (h.tags t).splitLeft = 0) (hright : (h.tags t).splitRight = 0)
    (hsmall : (h.tags t).realSize < 2 ^ 31) :
    ∃ frames, h.liballocFree hhdmOffset t (neededPages (h.tags t).realSize) = .ok { h with frames := frames } ∧
      Inv hhdmOffset { h with frames := frames } region (T \ {t}) K ∧ frames.Physical ∧
      frames.sizeInBlocks = h.frames.sizeInBlocks := by
  have htT := hinv.held_subset (Set.mem_insert t K)
  obtain ⟨hlow, -, hhigh⟩ := hinv.range htT
  obtain ⟨hfirst, hlength, hleast⟩ := hinv.whole_region hleft hright
  have hfits := hd.fits
  have hpages : neededPages (h.tags t).realSize = (h.tags t).realSize / blockSize := by
    unfold neededPages
    rw [if_neg (not_not.mpr hlength), if_neg]
    · rfl
    · unfold liballocPageCount liballocPageSize at *
      omega
  simp only [liballocPageSize, liballocPageCount] at hlow hfirst hlength hleast
  obtain ⟨s, hs⟩ : ∃ s, s = (t - hhdmOffset) / blockSize := ⟨_, rfl⟩
  obtain ⟨n, hn⟩ : ∃ n, n = (h.tags t).realSize / blockSize := ⟨_, rfl⟩
  have hcount : (h.tags t).realSize / blockSize = n := hn.symm
  unfold blockSize at hs hn
  have hphys : sub64 t hhdmOffset = s * blockSize := by
    unfold sub64 wrap blockSize
    omega
  have hlast := (hinv.linked.covered t htT (t + (h.tags t).realSize - 1) (by omega)
    (show _ < t + (h.tags t).realSize by omega)).inside
  unfold liballocPageSize at hlast
  obtain ⟨frames, hframes, hmarked, hphysical⟩ := physicalFree_spec hp (s := s) (n := n) (by omega)
    (by unfold blockSize; omega) (by omega) (by omega)
  refine ⟨frames, ?_, ?_, hphysical, hmarked.blocks⟩
  · rw [Liballoc.liballocFree, hphys, if_neg (by unfold blockSize; omega), hpages, hcount, hframes, Exec.ok_bind]
  · have herased := hinv.linked.erase hleft hright
    have hlists := hinv.lists.forget (Set.mem_insert t K)
    rw [Set.insert_sdiff_self_of_notMem ht] at hlists
    have hlists' : FreeLists { h with frames := frames } (T \ {t}) K :=
      hlists.congr rfl (fun _ _ _ => rfl) fun _ _ _ => rfl
    refine ⟨{ herased with covered := fun u hu a hua hau => ?_ }, fun u hu => hinv.regions u hu.1,
      fun u hu => hinv.magic u hu.1, fun u hu => ⟨hinv.held_subset (Set.mem_insert_of_mem t hu), fun hut => ht (hut ▸ hu)⟩,
      fun u hu => hinv.held_index u (Set.mem_insert_of_mem t hu), hlists', hphysical.memStart, hphysical.hint⟩
    obtain ⟨hlowa, hhigha, hinside, hused⟩ := hinv.linked.covered u hu.1 a hua hau
    refine ⟨hlowa, hhigha, by rwa [hmarked.blocks], ?_⟩
    have hapart : u + (h.tags u).realSize ≤ t ∨ t + (h.tags t).realSize ≤ u :=
      hinv.linked.apart u hu.1 t htT hu.2
    have hau : a < u + (h.tags u).realSize := hau
    unfold liballocPageSize at hlowa ⊢
    rwa [hmarked.get_outside (by omega)]

/-- The block goes to a list, or its frames go back. -/
theorem Inv.giveBack (hinv : h.Inv hhdmOffset region T (insert t K)) (hc : h.Complete) (hd : Aligned hhdmOffset)
    (ht : t ∉ K) (hp : h.frames.Physical) :
    ∃ h' T', h.giveBack hhdmOffset t = .ok h' ∧ h'.Inv hhdmOffset region T' K ∧ h'.Complete ∧ h.Keeps h' K ∧
      h'.frames.Physical ∧ h'.frames.sizeInBlocks = h.frames.sizeInBlocks := by
  have hindex : max (getexp (sub32 (h.tags t).realSize tagSize)) minExp = h.realIndex t (-1) := (realIndex_eq h t).symm
  have hreal : h.realIndex t (h.realIndex t (-1)) = h.realIndex t (-1) := by
    rw [realIndex, if_neg]
    rw [realIndex_eq]
    have := le_max_right (getexp (sub32 (h.tags t).realSize tagSize)) (minExp : ℤ)
    omega
  have hlisted (count : ℤ → ℤ)
      (hcount : ∀ i, count i ≤ h.completePages i + if i = h.realIndex t (-1) ∧ h.whole t then 1 else 0) :
      ∃ T', Inv hhdmOffset (Liballoc.insertTag { h with completePages := count } t (h.realIndex t (-1))) region T' K ∧
        Complete (Liballoc.insertTag { h with completePages := count } t (h.realIndex t (-1))) ∧
        h.Keeps (Liballoc.insertTag { h with completePages := count } t (h.realIndex t (-1))) K := by
    have hcounted : Inv hhdmOffset { h with completePages := count } region T (insert t K) :=
      ⟨hinv.linked, hinv.regions, hinv.magic, hinv.held_subset, hinv.held_index,
        ⟨hinv.lists.mem_iff, hinv.lists.index_eq, hinv.lists.nodup⟩, hinv.memStart, hinv.hint⟩
    have hinserted := hcounted.insertTag (Set.mem_insert t K) hreal
    rw [Set.insert_sdiff_self_of_notMem ht] at hinserted
    refine ⟨T, hinserted, hc.insertTag count (by rwa [hreal]), fun u hu => ?_⟩
    have hne : u ≠ t := fun hut => ht (hut ▸ hu)
    have htags : (Liballoc.insertTag { h with completePages := count } t (h.realIndex t (-1))).tags u = h.tags u :=
      setTag_tags_of_ne hne
    rw [htags]
    exact ⟨rfl, rfl⟩
  have hraised (hw : h.whole t = true) (i : ℤ) :
      Function.update h.completePages (h.realIndex t (-1)) (h.completePages (h.realIndex t (-1)) + 1) i ≤
        h.completePages i + if i = h.realIndex t (-1) ∧ h.whole t then 1 else 0 := by
    rcases eq_or_ne i (h.realIndex t (-1)) with heq | hne
    · rw [heq, Function.update_self, if_pos ⟨rfl, hw⟩]
    · rw [Function.update_of_ne hne, if_neg fun hboth => hne hboth.1, add_zero]
  rw [Liballoc.giveBack, hindex]
  by_cases hwhole : (h.tags t).splitLeft = 0 ∧ (h.tags t).splitRight = 0
  · rw [if_pos hwhole]
    by_cases hfull : h.completePages (h.realIndex t (-1)) = maxComplete
    · obtain ⟨frames, hframes, hinv', hp', hsize⟩ := hinv.liballocFree hd ht hp hwhole.1 hwhole.2
        (hinv.small_of_complete hc hfull)
      rw [if_pos hfull]
      have hc' : Complete { h with frames := frames } := hc.congr rfl rfl fun _ _ _ => rfl
      exact ⟨_, _, hframes, hinv', hc', fun u _ => ⟨rfl, rfl⟩, hp', hsize⟩
    · rw [if_neg hfull]
      obtain ⟨T', hinv', hc', hkeeps⟩ := hlisted _ (hraised (decide_eq_true hwhole))
      exact ⟨_, T', rfl, hinv', hc', hkeeps, hp, rfl⟩
  · rw [if_neg hwhole]
    obtain ⟨T', hinv', hc', hkeeps⟩ := hlisted h.completePages fun i => by
      split <;> omega
    exact ⟨_, T', rfl, hinv', hc', hkeeps, hp, rfl⟩

end GiveBack

end Liballoc

end DualFuse.Memory
