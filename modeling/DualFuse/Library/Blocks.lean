import Mathlib.Tactic

/-! Blocks of memory that know their neighbours. A block starts at an address and has a
size, and links to the blocks at its two sides, where `0` stands for none. Splitting a
block in two and joining a block with its right neighbour keep the blocks apart and the
links true; which addresses are covered does not change. -/

namespace DualFuse.Library

/-- Sizes and links, by the address of a block. -/
structure Blocks where
  size : ℕ → ℕ
  left : ℕ → ℕ
  right : ℕ → ℕ

namespace Blocks

/-- The links of the blocks at `T` are true and the blocks are apart. A block lies in its
region, from start to end, reaches the end where it has no neighbour, and shares it with
its neighbours; no block is smaller than `least`, and all are covered. -/
structure Linked (B : Blocks) (least : ℕ) (region : ℕ → ℕ × ℕ) (covered : ℕ → Prop) (T : Set ℕ) : Prop where
  pos : ∀ t ∈ T, 0 < t
  least_le : ∀ t ∈ T, least ≤ B.size t
  right : ∀ t ∈ T, B.right t ≠ 0 → B.right t ∈ T ∧ B.right t = t + B.size t ∧ B.left (B.right t) = t
  left : ∀ t ∈ T, B.left t ≠ 0 → B.left t ∈ T ∧ B.right (B.left t) = t
  within : ∀ t ∈ T, (region t).1 ≤ t ∧ t + B.size t ≤ (region t).2
  start : ∀ t ∈ T, B.left t = 0 → t = (region t).1
  stop : ∀ t ∈ T, B.right t = 0 → t + B.size t = (region t).2
  region_right : ∀ t ∈ T, B.right t ≠ 0 → region (B.right t) = region t
  covered : ∀ t ∈ T, ∀ a, t ≤ a → a < t + B.size t → covered a
  apart : ∀ t ∈ T, ∀ u ∈ T, t ≠ u → t + B.size t ≤ u ∨ u + B.size u ≤ t

/-- The block at `t` keeps `n` bytes, and the rest is a block of its own. -/
def split (B : Blocks) (t n : ℕ) : Blocks where
  size := Function.update (Function.update B.size t n) (t + n) (B.size t - n)
  left := Function.update (if B.right t = 0 then B.left else Function.update B.left (B.right t) (t + n)) (t + n) t
  right := Function.update (Function.update B.right (t + n) (B.right t)) t (t + n)

/-- The block at `t` takes in its right neighbour. -/
def join (B : Blocks) (t : ℕ) : Blocks where
  size := Function.update B.size t (B.size t + B.size (B.right t))
  left := if B.right (B.right t) = 0 then B.left else Function.update B.left (B.right (B.right t)) t
  right := Function.update B.right t (B.right (B.right t))

variable {B C : Blocks} {least t n : ℕ} {region : ℕ → ℕ × ℕ} {covered : ℕ → Prop} {T : Set ℕ}

theorem Linked.congr (h : B.Linked least region covered T) (hsize : ∀ t ∈ T, C.size t = B.size t)
    (hleft : ∀ t ∈ T, C.left t = B.left t) (hright : ∀ t ∈ T, C.right t = B.right t) :
    C.Linked least region covered T where
  pos := h.pos
  least_le t ht := hsize t ht ▸ h.least_le t ht
  right t ht hne := by
    rw [hright t ht] at hne ⊢
    obtain ⟨hmem, heq, hback⟩ := h.right t ht hne
    rw [hsize t ht, hleft _ hmem]
    exact ⟨hmem, heq, hback⟩
  left t ht hne := by
    rw [hleft t ht] at hne ⊢
    obtain ⟨hmem, hback⟩ := h.left t ht hne
    rw [hright _ hmem]
    exact ⟨hmem, hback⟩
  within t ht := hsize t ht ▸ h.within t ht
  start t ht hzero := h.start t ht (hleft t ht ▸ hzero)
  stop t ht hzero := by
    rw [hsize t ht]
    exact h.stop t ht (hright t ht ▸ hzero)
  region_right t ht hne := by
    rw [hright t ht] at hne ⊢
    exact h.region_right t ht hne
  covered t ht := hsize t ht ▸ h.covered t ht
  apart t ht u hu hne := by
    rw [hsize t ht, hsize u hu]
    exact h.apart t ht u hu hne

/-- A block without neighbours is taken away. -/
theorem Linked.erase (h : B.Linked least region covered T) (hleft : B.left t = 0) (hright : B.right t = 0) :
    B.Linked least region covered (T \ {t}) where
  pos u hu := h.pos u hu.1
  least_le u hu := h.least_le u hu.1
  right u hu hne := by
    obtain ⟨hmem, heq, hback⟩ := h.right u hu.1 hne
    refine ⟨⟨hmem, ?_⟩, heq, hback⟩
    rintro hlast
    rw [Set.mem_singleton_iff] at hlast
    rw [hlast, hleft] at hback
    exact absurd (h.pos u hu.1) (by omega)
  left u hu hne := by
    obtain ⟨hmem, hback⟩ := h.left u hu.1 hne
    refine ⟨⟨hmem, ?_⟩, hback⟩
    rintro hlast
    rw [Set.mem_singleton_iff] at hlast
    rw [hlast, hright] at hback
    exact absurd (h.pos u hu.1) (by omega)
  within u hu := h.within u hu.1
  start u hu := h.start u hu.1
  stop u hu := h.stop u hu.1
  region_right u hu := h.region_right u hu.1
  covered u hu := h.covered u hu.1
  apart u hu v hv := h.apart u hu.1 v hv.1

/-- A block without neighbours is added apart from all others, with a region of its own. -/
theorem Linked.add (h : B.Linked least region covered T) (hpos : 0 < t) (hleast : least ≤ B.size t)
    (hleft : B.left t = 0) (hright : B.right t = 0) (hcovered : ∀ a, t ≤ a → a < t + B.size t → covered a)
    (hnew : t ∉ T) (hapart : ∀ u ∈ T, t + B.size t ≤ u ∨ u + B.size u ≤ t) :
    B.Linked least (Function.update region t (t, t + B.size t)) covered (insert t T) := by
  have hself : Function.update region t (t, t + B.size t) t = (t, t + B.size t) := Function.update_self _ _ _
  have hother : ∀ u ∈ T, Function.update region t (t, t + B.size t) u = region u := fun u hu =>
    Function.update_of_ne (fun heq : u = t => hnew (heq ▸ hu)) _ _
  constructor
  · exact Set.forall_mem_insert.mpr ⟨hpos, h.pos⟩
  · exact Set.forall_mem_insert.mpr ⟨hleast, h.least_le⟩
  · exact Set.forall_mem_insert.mpr ⟨fun hne => absurd hright hne, fun u hu hne =>
      (h.right u hu hne).imp_left (Set.mem_insert_of_mem t)⟩
  · exact Set.forall_mem_insert.mpr ⟨fun hne => absurd hleft hne, fun u hu hne =>
      (h.left u hu hne).imp_left (Set.mem_insert_of_mem t)⟩
  · refine Set.forall_mem_insert.mpr ⟨by rw [hself]; exact ⟨le_rfl, le_rfl⟩, fun u hu => ?_⟩
    rw [hother u hu]
    exact h.within u hu
  · refine Set.forall_mem_insert.mpr ⟨fun _ => by rw [hself], fun u hu hzero => ?_⟩
    rw [hother u hu]
    exact h.start u hu hzero
  · refine Set.forall_mem_insert.mpr ⟨fun _ => by rw [hself], fun u hu hzero => ?_⟩
    rw [hother u hu]
    exact h.stop u hu hzero
  · refine Set.forall_mem_insert.mpr ⟨fun hne => absurd hright hne, fun u hu hne => ?_⟩
    rw [hother u hu, hother _ (h.right u hu hne).1]
    exact h.region_right u hu hne
  · exact Set.forall_mem_insert.mpr ⟨hcovered, h.covered⟩
  · rintro u (rfl | hu) v (rfl | hv) hne
    · exact absurd rfl hne
    · exact hapart v hv
    · exact (hapart u hu).symm
    · exact h.apart u hu v hv hne

/-! ### Splitting -/

section Split

theorem split_size_new (hn : 0 < n) : (B.split t n).size (t + n) = B.size t - n ∧ (B.split t n).size t = n := by
  constructor
  · exact Function.update_self _ _ _
  · exact (Function.update_of_ne (by omega) _ _).trans (Function.update_self _ _ _)

theorem split_size_of_ne {u : ℕ} (hne : u ≠ t) (hnew : u ≠ t + n) : (B.split t n).size u = B.size u :=
  (Function.update_of_ne hnew _ _).trans (Function.update_of_ne hne _ _)

theorem split_right_new (hn : 0 < n) : (B.split t n).right (t + n) = B.right t ∧ (B.split t n).right t = t + n := by
  constructor
  · exact (Function.update_of_ne (by omega) _ _).trans (Function.update_self _ _ _)
  · exact Function.update_self _ _ _

theorem split_right_of_ne {u : ℕ} (hne : u ≠ t) (hnew : u ≠ t + n) : (B.split t n).right u = B.right u :=
  (Function.update_of_ne hne _ _).trans (Function.update_of_ne hnew _ _)

theorem split_left_new : (B.split t n).left (t + n) = t := Function.update_self _ _ _

theorem split_left_right (hright : B.right t ≠ 0) (hnew : B.right t ≠ t + n) :
    (B.split t n).left (B.right t) = t + n := by
  refine (Function.update_of_ne hnew _ _).trans ?_
  rw [if_neg hright, Function.update_self]

theorem split_left_of_ne {u : ℕ} (hne : u = B.right t → B.right t = 0) (hnew : u ≠ t + n) :
    (B.split t n).left u = B.left u := by
  refine (Function.update_of_ne hnew _ _).trans ?_
  split_ifs with hzero
  · rfl
  · exact Function.update_of_ne (fun heq => hzero (hne heq)) _ _

/-- The new block is apart from all that were there. -/
theorem Linked.new_not_mem (h : B.Linked least region covered T) (ht : t ∈ T) (hn : 0 < n) (hlt : n < B.size t)
    (hleast : 0 < least) : t + n ∉ T := by
  intro hmem
  have hpos := h.least_le _ hmem
  rcases h.apart t ht _ hmem (by omega) with hlow | hhigh
  · omega
  · omega

theorem Linked.split (h : B.Linked least region covered T) (ht : t ∈ T) (hleast : 0 < least) (hn : least ≤ n)
    (hrest : least ≤ B.size t - n) :
    (B.split t n).Linked least (Function.update region (t + n) (region t)) covered (insert (t + n) T) := by
  have hnpos : 0 < n := by omega
  have hlt : n < B.size t := by omega
  have htpos := h.pos t ht
  have hnew := h.new_not_mem ht hnpos hlt hleast
  have hne : ∀ u ∈ T, u ≠ t + n := fun u hu heq => hnew (heq ▸ hu)
  obtain ⟨hsizeNew, hsizeOld⟩ := split_size_new (B := B) (t := t) hnpos
  obtain ⟨hrightNew, hrightOld⟩ := split_right_new (B := B) (t := t) hnpos
  have hleftNew : (B.split t n).left (t + n) = t := split_left_new
  have hregion : Function.update region (t + n) (region t) (t + n) = region t := Function.update_self _ _ _
  have hother : ∀ u ∈ T, Function.update region (t + n) (region t) u = region u := fun u hu =>
    Function.update_of_ne (hne u hu) _ _
  constructor
  · exact Set.forall_mem_insert.mpr ⟨by omega, h.pos⟩
  · refine Set.forall_mem_insert.mpr ⟨hsizeNew ▸ hrest, fun u hu => ?_⟩
    rcases eq_or_ne u t with rfl | hu'
    · rwa [hsizeOld]
    · rw [split_size_of_ne hu' (hne u hu)]
      exact h.least_le u hu
  · refine Set.forall_mem_insert.mpr ⟨fun hright => ?_, fun u hu hright => ?_⟩
    · rw [hrightNew] at hright ⊢
      obtain ⟨hmem, heq, -⟩ := h.right t ht hright
      refine ⟨Set.mem_insert_of_mem _ hmem, ?_, split_left_right hright (hne _ hmem)⟩
      rw [hsizeNew, heq]
      omega
    · rcases eq_or_ne u t with rfl | hu'
      · rw [hrightOld, hsizeOld]
        exact ⟨Set.mem_insert _ _, rfl, hleftNew⟩
      · rw [split_right_of_ne hu' (hne u hu)] at hright ⊢
        obtain ⟨hmem, heq, hback⟩ := h.right u hu hright
        rw [split_size_of_ne hu' (hne u hu), split_left_of_ne _ (hne _ hmem)]
        · exact ⟨Set.mem_insert_of_mem _ hmem, heq, hback⟩
        · intro hsame
          by_contra hzero
          have hother := (h.right t ht hzero).2.2
          rw [← hsame, hback] at hother
          exact hu' hother
  · refine Set.forall_mem_insert.mpr ⟨fun _ => ?_, fun u hu hleft => ?_⟩
    · rw [hleftNew]
      exact ⟨Set.mem_insert_of_mem _ ht, hrightOld⟩
    · by_cases hsame : u = B.right t
      · subst hsame
        have hzero : B.right t ≠ 0 := (h.pos _ hu).ne'
        rw [split_left_right hzero (hne _ hu)]
        exact ⟨Set.mem_insert _ _, hrightNew⟩
      · rw [split_left_of_ne (fun heq => absurd heq hsame) (hne u hu)] at hleft ⊢
        obtain ⟨hmem, hback⟩ := h.left u hu hleft
        refine ⟨Set.mem_insert_of_mem _ hmem, ?_⟩
        rw [split_right_of_ne _ (hne _ hmem)]
        · exact hback
        · intro heq
          rw [heq] at hback
          exact hsame hback.symm
  · have hwithin := h.within t ht
    refine Set.forall_mem_insert.mpr ⟨?_, fun u hu => ?_⟩
    · rw [hregion, hsizeNew]
      omega
    · rw [hother u hu]
      rcases eq_or_ne u t with rfl | hu'
      · rw [hsizeOld]
        omega
      · rw [split_size_of_ne hu' (hne u hu)]
        exact h.within u hu
  · refine Set.forall_mem_insert.mpr ⟨fun hzero => ?_, fun u hu hzero => ?_⟩
    · rw [hleftNew] at hzero
      omega
    · rw [hother u hu]
      by_cases hsame : u = B.right t
      · subst hsame
        rw [split_left_right (h.pos _ hu).ne' (hne _ hu)] at hzero
        omega
      · rw [split_left_of_ne (fun heq => absurd heq hsame) (hne u hu)] at hzero
        exact h.start u hu hzero
  · refine Set.forall_mem_insert.mpr ⟨fun hzero => ?_, fun u hu hzero => ?_⟩
    · rw [hrightNew] at hzero
      rw [hregion, hsizeNew, show t + n + (B.size t - n) = t + B.size t by omega]
      exact h.stop t ht hzero
    · rw [hother u hu]
      rcases eq_or_ne u t with rfl | hu'
      · rw [hrightOld] at hzero
        omega
      · rw [split_right_of_ne hu' (hne u hu)] at hzero
        rw [split_size_of_ne hu' (hne u hu)]
        exact h.stop u hu hzero
  · refine Set.forall_mem_insert.mpr ⟨fun hright => ?_, fun u hu hright => ?_⟩
    · rw [hrightNew] at hright ⊢
      rw [hregion, hother _ (h.right t ht hright).1]
      exact h.region_right t ht hright
    · rw [hother u hu]
      rcases eq_or_ne u t with rfl | hu'
      · rw [hrightOld, hregion]
      · rw [split_right_of_ne hu' (hne u hu)] at hright ⊢
        rw [hother _ (h.right u hu hright).1]
        exact h.region_right u hu hright
  · refine Set.forall_mem_insert.mpr ⟨fun a hlo hhi => ?_, fun u hu a hlo hhi => ?_⟩
    · rw [hsizeNew] at hhi
      exact h.covered t ht a (by omega) (by omega)
    · rcases eq_or_ne u t with rfl | hu'
      · rw [hsizeOld] at hhi
        exact h.covered u hu a hlo (by omega)
      · rw [split_size_of_ne hu' (hne u hu)] at hhi
        exact h.covered u hu a hlo hhi
  · have hold : ∀ u ∈ T, u ≠ t → u + B.size u ≤ t ∨ t + B.size t ≤ u := fun u hu hu' => h.apart u hu t ht hu'
    rintro u (rfl | hu) v (rfl | hv) huv
    · exact absurd rfl huv
    · rw [hsizeNew]
      rcases eq_or_ne v t with rfl | hv'
      · rw [hsizeOld]
        omega
      · rw [split_size_of_ne hv' (hne v hv)]
        have := hold v hv hv'
        omega
    · rw [hsizeNew]
      rcases eq_or_ne u t with rfl | hu'
      · rw [hsizeOld]
        omega
      · rw [split_size_of_ne hu' (hne u hu)]
        have := hold u hu hu'
        omega
    · rcases eq_or_ne u t with rfl | hu'
      · rw [hsizeOld, split_size_of_ne huv.symm (hne v hv)]
        have := hold v hv huv.symm
        omega
      · rw [split_size_of_ne hu' (hne u hu)]
        rcases eq_or_ne v t with rfl | hv'
        · rw [hsizeOld]
          have := hold u hu hu'
          omega
        · rw [split_size_of_ne hv' (hne v hv)]
          exact h.apart u hu v hv huv

end Split

/-! ### Joining -/

section Join

theorem join_size_self : (B.join t).size t = B.size t + B.size (B.right t) := Function.update_self _ _ _

theorem join_size_of_ne {u : ℕ} (hne : u ≠ t) : (B.join t).size u = B.size u := Function.update_of_ne hne _ _

theorem join_right_self : (B.join t).right t = B.right (B.right t) := Function.update_self _ _ _

theorem join_right_of_ne {u : ℕ} (hne : u ≠ t) : (B.join t).right u = B.right u := Function.update_of_ne hne _ _

theorem join_left_right (hzero : B.right (B.right t) ≠ 0) : (B.join t).left (B.right (B.right t)) = t := by
  unfold join
  dsimp only
  rw [if_neg hzero, Function.update_self]

theorem join_left_of_ne {u : ℕ} (hne : u = B.right (B.right t) → B.right (B.right t) = 0) :
    (B.join t).left u = B.left u := by
  unfold join
  dsimp only
  split_ifs with hzero
  · rfl
  · exact Function.update_of_ne (fun heq => hzero (hne heq)) _ _

theorem Linked.join (h : B.Linked least region covered T) (ht : t ∈ T) (hleast : 0 < least) (hright : B.right t ≠ 0) :
    (B.join t).Linked least region covered (T \ {B.right t}) := by
  obtain ⟨hmem, heq, hback⟩ := h.right t ht hright
  have hsize := h.least_le t ht
  have hsizeRight := h.least_le _ hmem
  have htpos := h.pos t ht
  have hnot : t ≠ B.right t := by omega
  constructor
  · exact fun u hu => h.pos u hu.1
  · rintro u ⟨hu, -⟩
    rcases eq_or_ne u t with rfl | hu'
    · rw [join_size_self]
      omega
    · rw [join_size_of_ne hu']
      exact h.least_le u hu
  · rintro u ⟨hu, hur⟩ hne
    rcases eq_or_ne u t with rfl | hu'
    · rw [join_right_self] at hne ⊢
      obtain ⟨hmem', heq', -⟩ := h.right _ hmem hne
      refine ⟨⟨hmem', ?_⟩, ?_, join_left_right hne⟩
      · rw [Set.mem_singleton_iff]
        omega
      · rw [join_size_self]
        omega
    · rw [join_right_of_ne hu'] at hne ⊢
      obtain ⟨hmem', heq', hback'⟩ := h.right u hu hne
      refine ⟨⟨hmem', ?_⟩, ?_, ?_⟩
      · rintro hsame
        rw [Set.mem_singleton_iff.mp hsame, hback] at hback'
        exact hu' hback'.symm
      · rwa [join_size_of_ne hu']
      · rw [join_left_of_ne]
        · exact hback'
        · intro hsame
          by_contra hzero
          have hother := (h.right _ hmem hzero).2.2
          rw [← hsame, hback'] at hother
          exact hur hother
  · rintro u ⟨hu, hur⟩ hne
    by_cases hsame : u = B.right (B.right t)
    · subst hsame
      rw [join_left_right (h.pos _ hu).ne']
      exact ⟨⟨ht, hnot⟩, join_right_self⟩
    · rw [join_left_of_ne fun heq => absurd heq hsame] at hne ⊢
      obtain ⟨hmem', hback'⟩ := h.left u hu hne
      have hnext : B.left u ≠ B.right t := fun heq => hsame (heq ▸ hback').symm
      have hself : B.left u ≠ t := fun heq => hur (heq ▸ hback').symm
      refine ⟨⟨hmem', hnext⟩, ?_⟩
      rwa [join_right_of_ne hself]
  · rintro u ⟨hu, -⟩
    rcases eq_or_ne u t with rfl | hu'
    · have hwithin := h.within _ hmem
      rw [h.region_right u hu hright] at hwithin
      rw [join_size_self]
      exact ⟨(h.within u hu).1, by omega⟩
    · rw [join_size_of_ne hu']
      exact h.within u hu
  · rintro u ⟨hu, hur⟩ hzero
    by_cases hsame : u = B.right (B.right t)
    · subst hsame
      rw [join_left_right (h.pos _ hu).ne'] at hzero
      omega
    · rw [join_left_of_ne fun heq => absurd heq hsame] at hzero
      exact h.start u hu hzero
  · rintro u ⟨hu, hur⟩ hzero
    rcases eq_or_ne u t with rfl | hu'
    · rw [join_right_self] at hzero
      rw [join_size_self, ← Nat.add_assoc, ← heq, ← h.region_right u hu hright]
      exact h.stop _ hmem hzero
    · rw [join_right_of_ne hu'] at hzero
      rw [join_size_of_ne hu']
      exact h.stop u hu hzero
  · rintro u ⟨hu, hur⟩ hne
    rcases eq_or_ne u t with rfl | hu'
    · rw [join_right_self] at hne ⊢
      rw [h.region_right _ hmem hne, h.region_right u hu hright]
    · rw [join_right_of_ne hu'] at hne ⊢
      exact h.region_right u hu hne
  · rintro u ⟨hu, hur⟩ a hlo hhi
    rcases eq_or_ne u t with rfl | hu'
    · rw [join_size_self] at hhi
      rcases lt_or_ge a (B.right u) with hleft | hafter
      · exact h.covered u hu a hlo (by omega)
      · exact h.covered _ hmem a hafter (by omega)
    · rw [join_size_of_ne hu'] at hhi
      exact h.covered u hu a hlo hhi
  · have hold : ∀ u ∈ T, u ≠ t → u ≠ B.right t →
        t + (B.size t + B.size (B.right t)) ≤ u ∨ u + B.size u ≤ t := by
      intro u hu hu' hur
      have hsizeU := h.least_le u hu
      rcases h.apart u hu t ht hu' with hlow | hhigh
      · exact .inr hlow
      · rcases h.apart u hu _ hmem hur with hlow' | hhigh'
        · omega
        · left
          omega
    rintro u ⟨hu, hur⟩ v ⟨hv, hvr⟩ huv
    rcases eq_or_ne u t with rfl | hu'
    · rw [join_size_self, join_size_of_ne huv.symm]
      exact hold v hv huv.symm hvr
    · rw [join_size_of_ne hu']
      rcases eq_or_ne v t with rfl | hv'
      · rw [join_size_self]
        exact (hold u hu hu' hur).symm
      · rw [join_size_of_ne hv']
        exact h.apart u hu v hv huv

end Join

end Blocks

end DualFuse.Library
