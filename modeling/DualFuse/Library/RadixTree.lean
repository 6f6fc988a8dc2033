import Mathlib.Tactic

/-! Radix trees stored in a memory of nodes. A node has one entry for each
index, and an entry may be absent, lead to another node or be a value. A path of
indices is walked from a root; a lookup stops at the first entry that leads to
no node. Two updates are described completely: grafting a fresh empty node under
an absent entry, and overwriting an entry of the last level. Both need the tree
property, that different paths lead to different nodes. -/

namespace DualFuse.Library.RadixTree

variable {α ι ε : Type*}

section Walk
variable (next : ε → Option α) (mem : α → ι → ε)

/-- The node at the end of a path. -/
def walk : α → List ι → Option α
  | r, [] => some r
  | r, i :: p => (next (mem r i)).bind fun a => walk a p

/-- The first entry on a path that leads to no node, if it is there, and the rest
of the path. -/
def lookup (there : ε → Bool) : α → List ι → Option (ε × List ι)
  | _, [] => none
  | r, [i] => if there (mem r i) then some (mem r i, []) else none
  | r, i :: j :: p =>
    match next (mem r i) with
    | some a => lookup there a (j :: p)
    | none => if there (mem r i) then some (mem r i, j :: p) else none

@[simp] theorem walk_nil (r : α) : walk next mem r [] = some r := rfl

theorem walk_cons (r : α) (i : ι) (p : List ι) :
    walk next mem r (i :: p) = (next (mem r i)).bind fun a => walk next mem a p := rfl

theorem walk_append (r : α) (p q : List ι) :
    walk next mem r (p ++ q) = (walk next mem r p).bind fun a => walk next mem a q := by
  induction p generalizing r with
  | nil => rfl
  | cons i p ih =>
    rw [List.cons_append, walk_cons, walk_cons]
    cases next (mem r i) with
    | none => rfl
    | some a => exact ih a

theorem walk_snoc (r : α) (p : List ι) (i : ι) :
    walk next mem r (p ++ [i]) = (walk next mem r p).bind fun a => next (mem a i) := by
  rw [walk_append]
  congr 1
  funext a
  rw [walk_cons]
  cases next (mem a i) <;> rfl

variable {next mem}

theorem walk_snoc_of_walk {r a : α} {p : List ι} (h : walk next mem r p = some a) (i : ι) :
    walk next mem r (p ++ [i]) = next (mem a i) := by
  rw [walk_snoc, h, Option.bind_some]

theorem lookup_cons_of_next {there : ε → Bool} {r a : α} {i : ι} {q : List ι} (hq : q ≠ [])
    (h : next (mem r i) = some a) : lookup next mem there r (i :: q) = lookup next mem there a q := by
  obtain ⟨j, q, rfl⟩ := List.exists_cons_of_ne_nil hq
  simp only [lookup, h]

theorem lookup_append_of_walk {there : ε → Bool} {r a : α} {p q : List ι} (hq : q ≠ [])
    (ha : walk next mem r p = some a) :
    lookup next mem there r (p ++ q) = lookup next mem there a q := by
  induction p generalizing r with
  | nil => cases ha; rfl
  | cons j p ih =>
    rw [walk_cons] at ha
    obtain ⟨b, hb, ha⟩ := Option.bind_eq_some_iff.mp ha
    rw [List.cons_append, lookup_cons_of_next (by simp [hq]) hb]
    exact ih ha

/-- A lookup ends at an entry of a node on its path, which is there. -/
theorem walk_of_lookup {there : ε → Bool} {r : α} {q : List ι} {e : ε} {rest : List ι}
    (h : lookup next mem there r q = some (e, rest)) :
    ∃ p a i, walk next mem r p = some a ∧ e = mem a i ∧ p.length < q.length ∧ there e = true := by
  induction q generalizing r with
  | nil => cases h
  | cons i q ih =>
    cases q with
    | nil =>
      simp only [lookup] at h
      split_ifs at h with ht
      cases h
      exact ⟨[], r, i, rfl, rfl, by simp, ht⟩
    | cons j q =>
      cases hn : next (mem r i) with
      | some a =>
        rw [lookup_cons_of_next (by simp) hn] at h
        obtain ⟨p, b, k, hp, he, hlen, ht⟩ := ih h
        exact ⟨i :: p, b, k, by rw [walk_cons, hn]; exact hp, he, by simpa using hlen, ht⟩
      | none =>
        simp only [lookup, hn] at h
        split_ifs at h with ht
        cases h
        exact ⟨[], r, i, rfl, rfl, by simp, ht⟩

/-- The nodes of a walk stay in a set that is closed under the entries. -/
theorem walk_mem {S : α → Prop} (hS : ∀ a i b, S a → next (mem a i) = some b → S b) {r a : α} {p : List ι}
    (hr : S r) (h : walk next mem r p = some a) : S a := by
  induction p generalizing r with
  | nil => cases h; exact hr
  | cons i p ih =>
    rw [walk_cons] at h
    obtain ⟨b, hb, h⟩ := Option.bind_eq_some_iff.mp h
    exact ih (hS r i b hr hb) h

/-- The entry at which a lookup ends early is there and leads to no node. -/
theorem next_of_lookup_rest {there : ε → Bool} {r : α} {q : List ι} {e : ε} {rest : List ι}
    (h : lookup next mem there r q = some (e, rest)) (hrest : rest ≠ []) : next e = none ∧ there e = true := by
  induction q generalizing r with
  | nil => cases h
  | cons i q ih =>
    cases q with
    | nil =>
      simp only [lookup] at h
      split_ifs at h
      cases h
      exact absurd rfl hrest
    | cons j q =>
      cases hn : next (mem r i) with
      | some a => exact ih (by rwa [lookup_cons_of_next (by simp) hn] at h)
      | none =>
        simp only [lookup, hn] at h
        split_ifs at h with ht
        cases h
        exact ⟨hn, ht⟩

/-- A lookup that ends before the last level leaves a rest of the path. -/
theorem lookup_rest_of_walk_none {there : ε → Bool} {r : α} {p : List ι} {i : ι} {e : ε} {rest : List ι}
    (hp : walk next mem r p = none) (h : lookup next mem there r (p ++ [i]) = some (e, rest)) : rest ≠ [] := by
  induction p generalizing r with
  | nil => cases hp
  | cons j p ih =>
    cases hn : next (mem r j) with
    | none =>
      obtain ⟨k, t, hk⟩ := List.exists_cons_of_ne_nil (show p ++ [i] ≠ [] by simp)
      rw [List.cons_append, hk] at h
      simp only [lookup, hn] at h
      split_ifs at h
      cases h
      simp
    | some a =>
      rw [walk_cons, hn, Option.bind_some] at hp
      rw [List.cons_append, lookup_cons_of_next (by simp) hn] at h
      exact ih hp h

/-- A walk depends only on the entries it reads. -/
theorem walk_congr {next' : ε → Option α} {mem' : α → ι → ε} {r : α} {p : List ι}
    (h : ∀ q i a, q ++ [i] <+: p → walk next mem r q = some a → next' (mem' a i) = next (mem a i)) :
    walk next' mem' r p = walk next mem r p := by
  induction p using List.reverseRecOn with
  | nil => rfl
  | append_singleton p i ih =>
    have hp := ih fun q j a hq => h q j a (hq.trans (List.prefix_append p [i]))
    rw [walk_snoc, walk_snoc, hp]
    cases ha : walk next mem r p with
    | none => rfl
    | some a => exact h p i a (List.prefix_refl _) ha

/-- A lookup depends only on the nodes it passes. -/
theorem lookup_congr {there : ε → Bool} {mem' : α → ι → ε} {r : α} {q : List ι}
    (h : ∀ p a, p.length < q.length → walk next mem r p = some a → mem' a = mem a) :
    lookup next mem' there r q = lookup next mem there r q := by
  induction q generalizing r with
  | nil => rfl
  | cons i q ih =>
    have hr : mem' r = mem r := h [] r (by simp) rfl
    cases q with
    | nil => simp only [lookup, hr]
    | cons j q =>
      simp only [lookup, hr]
      cases hn : next (mem r i) with
      | none => rfl
      | some a =>
        refine ih fun p b hp hb => h (i :: p) b (by simpa using hp) ?_
        rw [walk_cons, hn]
        exact hb

variable (next mem) in
/-- Different paths of at most `n` steps lead to different nodes. -/
def Tree (n : ℕ) (r : α) : Prop :=
  ∀ p q a, p.length ≤ n → q.length ≤ n → walk next mem r p = some a → walk next mem r q = some a → p = q

end Walk

/-! ### Updates of one entry -/

section Update
variable [DecidableEq α] [DecidableEq ι]

/-- One entry replaced. -/
def put (mem : α → ι → ε) (a : α) (i : ι) (e : ε) : α → ι → ε :=
  Function.update mem a (Function.update (mem a) i e)

@[simp] theorem put_same (mem : α → ι → ε) (a : α) (i : ι) (e : ε) : put mem a i e a i = e := by
  simp [put]

theorem put_node (mem : α → ι → ε) {a b : α} (i j : ι) (e : ε) (h : b ≠ a) : put mem a i e b j = mem b j := by
  simp [put, h]

theorem put_entry (mem : α → ι → ε) {a : α} {i j : ι} (e : ε) (h : j ≠ i) (b : α) :
    put mem a i e b j = mem b j := by
  by_cases hb : b = a
  · subst hb; simp [put, h]
  · exact put_node mem i j e hb

theorem put_of_ne (mem : α → ι → ε) {a b : α} {i j : ι} (e : ε) (h : ¬(b = a ∧ j = i)) :
    put mem a i e b j = mem b j := by
  by_cases hb : b = a
  · exact put_entry mem e (fun hj => h ⟨hb, hj⟩) b
  · exact put_node mem i j e hb

end Update

section Graft
variable {next : ε → Option α} {there : ε → Bool} {mem mem' : α → ι → ε} {n : ℕ} {r a f : α} {p : List ι} {i : ι}

/-- `mem'` is `mem` with the fresh empty node `f` put under the absent entry `i` of
the node `a` at the end of the path `p`. -/
structure Grafted (next : ε → Option α) (there : ε → Bool) (mem mem' : α → ι → ε) (n : ℕ) (r a f : α)
    (p : List ι) (i : ι) : Prop where
  depth : p.length < n
  place : walk next mem r p = some a
  absent : next (mem a i) = none
  notThere : there (mem a i) = false
  fresh : ∀ q, q.length ≤ n → walk next mem r q ≠ some f
  link : next (mem' a i) = some f
  empty : ∀ j, next (mem' f j) = none
  emptyThere : ∀ j, there (mem' f j) = false
  other : ∀ b j, b ≠ f → ¬(b = a ∧ j = i) → mem' b j = mem b j

/-- A walk that does not pass the graft is unchanged. -/
theorem Grafted.walk_off (h : Grafted next there mem mem' n r a f p i) (ht : Tree next mem n r) {q : List ι}
    (hq : q.length ≤ n) (hoff : ¬p ++ [i] <+: q) : walk next mem' r q = walk next mem r q := by
  refine walk_congr fun q' j b hq' hb => ?_
  have hlen := hq'.length_le
  rw [List.length_append, List.length_singleton] at hlen
  rw [h.other b j]
  · rintro rfl
    exact h.fresh q' (by omega) hb
  · rintro ⟨rfl, rfl⟩
    have := ht q' p b (by omega) h.depth.le hb h.place
    exact hoff (this ▸ hq')

/-- After a graft exactly one more path leads to a node. -/
theorem Grafted.walk_eq [DecidableEq ι] (h : Grafted next there mem mem' n r a f p i) (ht : Tree next mem n r)
    {q : List ι} (hq : q.length ≤ n) :
    walk next mem' r q = if q = p ++ [i] then some f else walk next mem r q := by
  by_cases hon : p ++ [i] <+: q
  · obtain ⟨t, rfl⟩ := hon
    have hp : walk next mem' r p = some a := by
      rw [h.walk_off ht h.depth.le, h.place]
      intro hpre
      have := hpre.length_le
      rw [List.length_append, List.length_singleton] at this
      omega
    have hpi : walk next mem' r (p ++ [i]) = some f := (walk_snoc_of_walk hp i).trans h.link
    cases t with
    | nil => simp [hpi]
    | cons j t =>
      have hne : ¬p ++ [i] ++ j :: t = p ++ [i] := by simp
      rw [if_neg hne, walk_append, hpi, walk_append, walk_snoc_of_walk h.place, h.absent, Option.bind_some,
        walk_cons, h.empty]
      rfl
  · rw [h.walk_off ht hq hon, if_neg]
    rintro rfl
    exact hon (List.prefix_refl _)

theorem Grafted.tree [DecidableEq ι] (h : Grafted next there mem mem' n r a f p i) (ht : Tree next mem n r) :
    Tree next mem' n r := by
  intro q q' b hq hq' hb hb'
  rw [h.walk_eq ht hq] at hb
  rw [h.walk_eq ht hq'] at hb'
  split_ifs at hb hb' with h₁ h₂ h₂
  · rw [h₁, h₂]
  · cases hb; exact absurd hb' (h.fresh q' hq')
  · cases hb'; exact absurd hb (h.fresh q hq)
  · exact ht q q' b hq hq' hb hb'

theorem lookup_of_empty (hnext : ∀ j, next (mem f j) = none) (hthere : ∀ j, there (mem f j) = false)
    (q : List ι) : lookup next mem there f q = none := by
  cases q with
  | nil => rfl
  | cons i q =>
    cases q with
    | nil => simp [lookup, hthere]
    | cons j q => simp [lookup, hnext, hthere]

/-- A graft changes no lookup that goes down to the last level. -/
theorem Grafted.lookup_from (h : Grafted next there mem mem' n r a f p i) (ht : Tree next mem n r)
    {q' q : List ι} {b : α} (hb : walk next mem r q' = some b) (hlen : q'.length + q.length = n + 1) :
    lookup next mem' there b q = lookup next mem there b q := by
  induction q generalizing q' b with
  | nil => rfl
  | cons j q ih =>
    by_cases hon : b = a ∧ j = i
    · obtain ⟨rfl, rfl⟩ := hon
      rw [List.length_cons] at hlen
      have hq' : q' = p := ht q' p b (by omega) h.depth.le hb h.place
      subst hq'
      cases q with
      | nil => have := h.depth; simp at hlen; omega
      | cons k q =>
        simp only [lookup, h.link, h.absent, h.notThere, Bool.false_eq_true, if_false]
        exact lookup_of_empty h.empty h.emptyThere _
    · have hbf : b ≠ f := by
        rintro rfl
        exact h.fresh q' (by simp at hlen; omega) hb
      have hsame := h.other b j hbf hon
      cases q with
      | nil => simp only [lookup, hsame]
      | cons k q =>
        simp only [lookup, hsame]
        cases hc : next (mem b j) with
        | none => rfl
        | some c =>
          refine ih ((walk_snoc_of_walk hb j).trans hc) ?_
          simp only [List.length_append, List.length_cons, List.length_nil] at hlen ⊢
          omega

theorem Grafted.lookup_eq (h : Grafted next there mem mem' n r a f p i) (ht : Tree next mem n r) {q : List ι}
    (hq : q.length = n + 1) : lookup next mem' there r q = lookup next mem there r q :=
  h.lookup_from ht (walk_nil next mem r) (by simpa using hq)

end Graft

section Leaf
variable [DecidableEq α] [DecidableEq ι] {next : ε → Option α} {there : ε → Bool} {mem : α → ι → ε}
  {n : ℕ} {r a : α} {p : List ι} {i : ι}

/-- Overwriting an entry of the last level moves no node. -/
theorem walk_put_leaf (ht : Tree next mem n r) (ha : walk next mem r p = some a) (hp : p.length = n) (e : ε)
    {q : List ι} (hq : q.length ≤ n) : walk next (put mem a i e) r q = walk next mem r q := by
  refine walk_congr fun q' j b hq' hb => ?_
  rw [put_node]
  rintro rfl
  have hlen := hq'.length_le
  rw [List.length_append, List.length_singleton] at hlen
  have := congrArg List.length (ht q' p b (by omega) hp.le hb ha)
  omega

theorem tree_put_leaf (ht : Tree next mem n r) (ha : walk next mem r p = some a) (hp : p.length = n) (e : ε) :
    Tree next (put mem a i e) n r := by
  intro q q' b hq hq' hb hb'
  rw [walk_put_leaf ht ha hp e hq] at hb
  rw [walk_put_leaf ht ha hp e hq'] at hb'
  exact ht q q' b hq hq' hb hb'

/-- Overwriting an entry of the last level changes exactly the lookup of its path. -/
theorem lookup_put_leaf (ht : Tree next mem n r) (ha : walk next mem r p = some a) (hp : p.length = n) (e : ε)
    {q : List ι} (hq : q.length = n + 1) (hne : q ≠ p ++ [i]) :
    lookup next (put mem a i e) there r q = lookup next mem there r q := by
  have hfrom : ∀ (q' t : List ι) b, walk next mem r q' = some b → q'.length + t.length = n + 1 →
      q' ++ t ≠ p ++ [i] → lookup next (put mem a i e) there b t = lookup next mem there b t := by
    intro q' t
    induction t generalizing q' with
    | nil => intros; rfl
    | cons j t ih =>
      intro b hb hlen hne
      have hsame : put mem a i e b j = mem b j := by
        refine put_of_ne mem e ?_
        rintro ⟨rfl, rfl⟩
        rw [List.length_cons] at hlen
        have hq' : q' = p := ht q' p b (by omega) hp.le hb ha
        subst hq'
        have ht' : t = [] := List.eq_nil_of_length_eq_zero (by omega)
        subst ht'
        exact hne rfl
      cases t with
      | nil => simp only [lookup, hsame]
      | cons k t =>
        simp only [lookup, hsame]
        cases hc : next (mem b j) with
        | none => rfl
        | some c =>
          refine ih (q' ++ [j]) c ((walk_snoc_of_walk hb j).trans hc) ?_ (by simpa using hne)
          simp only [List.length_append, List.length_cons, List.length_nil] at hlen ⊢
          omega
  exact hfrom [] q r rfl (by simpa using hq) (by simpa using hne)

theorem lookup_put_self (ht : Tree next mem n r) (ha : walk next mem r p = some a) (hp : p.length = n) {e : ε}
    (he : there e = true) : lookup next (put mem a i e) there r (p ++ [i]) = some (e, []) := by
  have ha' : walk next (put mem a i e) r p = some a := (walk_put_leaf ht ha hp e hp.le).trans ha
  rw [lookup_append_of_walk (by simp) ha']
  simp [lookup, he]

end Leaf

end DualFuse.Library.RadixTree
