import DualFuse.Library.Cursor
import Mathlib.Data.List.MinMax

/-! Listing by buffers. A call fills a buffer with the items that are left, and stops at the
first one that has no room. There the next call begins, and an item that a call begins with
may come differently from one that it comes to. All buffers give the same listing exactly if
no item but the first one does. -/

namespace DualFuse.Library

/-- How items come: their sizes, what they are `again` when a later call begins with them, and
what is seen of them. From `bound` bytes on nothing is added, and some bytes are to spare. -/
structure Batching (α β : Type) where
  size : α → ℕ
  again : α → α
  shown : α → β
  bound : ℕ
  spare : ℕ
  bound_pos : 0 < bound
  again_again : ∀ x, again (again x) = again x

namespace Batching
variable {α β : Type} (B : Batching α β)

/-- There is no room for `n` bytes behind the first `a`. -/
def Full (limit a n : ℕ) : Prop := B.bound ≤ a ∨ limit < a + n + B.spare

instance (limit a n : ℕ) : Decidable (B.Full limit a n) := inferInstanceAs (Decidable (_ ∨ _))

def total (l : List α) : ℕ := (l.map B.size).sum

/-- The items that are added behind the first `a` bytes, and the others. -/
def fill (limit : ℕ) : ℕ → List α → List α × List α
  | _, [] => ([], [])
  | a, x :: l =>
    if B.Full limit a (B.size x) then ([], x :: l)
    else (x :: (fill limit (a + B.size x) l).1, (fill limit (a + B.size x) l).2)

/-- The items as the next call comes to them. -/
def resume : List α → List α
  | [] => []
  | x :: l => B.again x :: l

def call (limit : ℕ) (l : List α) : Exec (List α × List α) :=
  .ok (B.resume (B.fill limit 0 l).2, (B.fill limit 0 l).1)

/-- The buffer has room for each item, however it comes. -/
def Fits (limit : ℕ) (l : List α) : Prop :=
  ∀ x ∈ l, B.size x + B.spare ≤ limit ∧ B.size (B.again x) + B.spare ≤ limit

/-- What the first `n` calls leave, and what is seen of the items that they give. -/
def listed (limits : ℕ → ℕ) (l : List α) (n : ℕ) : Exec (List α × List β) :=
  Cursor.listed B.call (List.map B.shown) limits l n

def Lists (limits : ℕ → ℕ) (l : List α) (full : List β) : Prop :=
  Cursor.Lists B.call (List.map B.shown) (· = []) limits l full

variable {B} {limit a : ℕ} {l p r s : List α} {x y e : α}

@[simp] theorem total_nil : B.total [] = 0 := rfl

@[simp] theorem total_cons (x : α) (l : List α) : B.total (x :: l) = B.size x + B.total l := by simp [total]

@[simp] theorem total_append (l l' : List α) : B.total (l ++ l') = B.total l + B.total l' := by simp [total]

theorem size_le_total (h : x ∈ l) : B.size x ≤ B.total l :=
  List.single_le_sum (fun _ _ => Nat.zero_le _) _ (List.mem_map_of_mem h)

theorem fill_append (limit a : ℕ) (l : List α) : (B.fill limit a l).1 ++ (B.fill limit a l).2 = l := by
  induction l generalizing a with
  | nil => rfl
  | cons x l ih =>
    rw [fill]
    split_ifs
    · rfl
    · rw [List.cons_append, ih]

/-- The items that are added have room. -/
theorem fill_room (limit a : ℕ) (l : List α) :
    (B.fill limit a l).1 = [] ∨ a + B.total (B.fill limit a l).1 + B.spare ≤ limit := by
  induction l generalizing a with
  | nil => exact Or.inl rfl
  | cons x l ih =>
    rw [fill]
    split_ifs with hfull
    · exact Or.inl rfl
    · refine Or.inr ?_
      dsimp only
      rw [total_cons]
      unfold Full at hfull
      rcases ih (a + B.size x) with hnil | hroom
      · rw [hnil, total_nil]
        omega
      · omega

/-- Items that have room are added. -/
theorem fill_fitting (hroom : a + B.total p + B.spare ≤ limit) (hbound : a + B.total p < B.bound) (r : List α) :
    B.fill limit a (p ++ r) =
      (p ++ (B.fill limit (a + B.total p) r).1, (B.fill limit (a + B.total p) r).2) := by
  induction p generalizing a with
  | nil => rfl
  | cons x p ih =>
    rw [total_cons] at hroom hbound
    rw [List.cons_append, fill, if_neg, ih (by omega) (by omega), total_cons, Nat.add_assoc, List.cons_append]
    unfold Full
    omega

theorem fill_stop (h : B.Full limit a (B.size x)) (l : List α) : B.fill limit a (x :: l) = ([], x :: l) := if_pos h

theorem Fits.fill_cons (h : B.Fits limit (x :: l)) :
    B.fill limit 0 (x :: l) = (x :: (B.fill limit (B.size x) l).1, (B.fill limit (B.size x) l).2) := by
  have hbound := B.bound_pos
  have hroom := (h x List.mem_cons_self).1
  rw [fill, if_neg, Nat.zero_add]
  unfold Full
  omega

theorem Fits.fill_ne_nil (h : B.Fits limit l) (hl : l ≠ []) : (B.fill limit 0 l).1 ≠ [] := by
  obtain ⟨x, l, rfl⟩ := List.exists_cons_of_ne_nil hl
  rw [h.fill_cons]
  exact List.cons_ne_nil _ _

theorem Fits.resume (h : B.Fits limit (p ++ r)) : B.Fits limit (B.resume r) := by
  intro y hy
  cases r with
  | nil => cases hy
  | cons x r =>
    rcases List.mem_cons.mp hy with rfl | hy
    · have hx := (h x (List.mem_append_right p List.mem_cons_self)).2
      rw [B.again_again]
      exact ⟨hx, hx⟩
    · exact h y (List.mem_append_right p (List.mem_cons_of_mem x hy))

/-! ### Items that look the same -/

/-- The state of a listing for which the items but the first one look the same again. -/
structure Steady (limits : ℕ → ℕ) (l : List α) : Prop where
  fits : ∀ n, B.Fits (limits n) l
  same : ∀ x ∈ l.tail, B.shown (B.again x) = B.shown x

theorem Steady.takes {limits : ℕ → ℕ} (h : B.Steady limits l) (n : ℕ) :
    Cursor.Takes B.call (List.map B.shown) (· = []) (List.map B.shown) (B.Steady limits) (limits n) l := by
  cases l with
  | nil => exact ⟨[], [], rfl, h, rfl, by simp, fun _ => rfl⟩
  | cons x l =>
    have hcall : B.call (limits n) (x :: l) =
        .ok (B.resume (B.fill (limits n) (B.size x) l).2, x :: (B.fill (limits n) (B.size x) l).1) := by
      rw [call, (h.fits n).fill_cons]
    have happend := B.fill_append (limits n) (B.size x) l
    generalize (B.fill (limits n) (B.size x) l).1 = p at *
    generalize (B.fill (limits n) (B.size x) l).2 = r at *
    subst happend
    have hr : ∀ y ∈ r, B.shown (B.again y) = B.shown y := fun y hy => h.same y (List.mem_append_right p hy)
    have hshown : (B.resume r).map B.shown = r.map B.shown := by
      cases r with
      | nil => rfl
      | cons y r => rw [resume, List.map_cons, List.map_cons, hr y List.mem_cons_self]
    have hsteady : B.Steady limits (B.resume r) := by
      constructor
      · exact fun m => Fits.resume (p := x :: p) (h.fits m)
      · intro y hy
        cases r with
        | nil => cases hy
        | cons z r => exact hr y (List.mem_cons_of_mem z hy)
    refine ⟨B.resume r, x :: p, hcall, hsteady, ?_, by simp, by simp⟩
    rw [hshown, List.map_cons, List.map_append, List.map_cons, List.cons_append]

/-- Where no item but the first one comes differently again, all buffers give the same listing. -/
theorem lists_of_same {limits : ℕ → ℕ} (hfits : ∀ n, B.Fits (limits n) l)
    (hsame : ∀ x ∈ l.tail, B.shown (B.again x) = B.shown x) : B.Lists limits l (l.map B.shown) :=
  Cursor.lists_of_takes (Steady.mk hfits hsame) fun n _ _ ht _ => ht.takes n

/-! ### Buffers that stop at an item -/

/-- All buffers give this listing. -/
def Agreed (B : Batching α β) (l : List α) (full : List β) : Prop :=
  ∀ limits : ℕ → ℕ, (∀ n, B.Fits (limits n) l) → B.Lists limits l full

theorem listed_fits {limits : ℕ → ℕ} {n : ℕ} {acc : List β} (h : B.Fits limit l)
    (hn : B.listed limits l n = .ok (s, acc)) : B.Fits limit s := by
  refine Cursor.listed_invariant (fun m t u r ht hcall => ?_) h hn
  cases hcall
  rw [← B.fill_append (limits m) 0 t] at ht
  exact ht.resume

theorem listed_succ {limits : ℕ → ℕ} {n : ℕ} {acc : List β} (hn : B.listed limits l n = .ok (s, acc)) :
    B.listed limits l (n + 1) =
      .ok (B.resume (B.fill (limits n) 0 s).2, acc ++ (B.fill (limits n) 0 s).1.map B.shown) :=
  Cursor.listed_succ hn rfl

/-- What was given by some calls is the beginning of the listing, as long as items are left. -/
theorem Lists.prefix_of_listed {limits : ℕ → ℕ} {full acc : List β} (h : B.Lists limits l full)
    (hfits : ∀ n, B.Fits (limits n) l) {n : ℕ} (hn : B.listed limits l n = .ok (s, acc)) : acc <+: full := by
  obtain ⟨m, t, hm, ⟨u, r, hcall, hend⟩, -⟩ := h
  rcases Nat.le_total n m with hle | hle
  · exact Cursor.listed_prefix hle hn hm
  · have ht : t = [] := by
      cases t with
      | nil => rfl
      | cons x t =>
        cases hcall
        have hfill := (listed_fits (hfits m) hm).fill_cons
        rw [hfill] at hend
        cases hend
    subst ht
    have hstays : ∀ k, m ≤ k → B.listed limits l k = .ok ([], full) := by
      intro k hk
      induction k, hk using Nat.le_induction with
      | base => exact hm
      | succ k _ ih =>
        rw [listed_succ ih]
        simp [fill, resume]
    rw [hstays n hle] at hn
    cases hn
    exact List.prefix_rfl

/-- What the calls give with `limit`, but for one call with another buffer. -/
theorem listed_instead {acc : List β} {k : ℕ} (hk : B.listed (fun _ => limit) l k = .ok (s, acc)) (other : ℕ) :
    B.listed (Function.update (fun _ => limit) k other) l (k + 1) =
      .ok (B.resume (B.fill other 0 s).2, acc ++ (B.fill other 0 s).1.map B.shown) := by
  have hbefore : B.listed (Function.update (fun _ => limit) k other) l k = .ok (s, acc) := by
    rw [← hk]
    refine Cursor.listed_congr fun m hm => ?_
    rw [Function.update_of_ne hm.ne]
  have hnext := listed_succ hbefore
  rwa [Function.update_self] at hnext

theorem fits_instead {other k : ℕ} (h : B.Fits limit l) (hle : limit ≤ other) (n : ℕ) :
    B.Fits (Function.update (fun _ => limit) k other n) l := by
  have hlimit : limit ≤ Function.update (fun _ => limit) k other n := by
    by_cases hn : n = k
    · rw [hn, Function.update_self]
      exact hle
    · rw [Function.update_of_ne hn]
  intro x hx
  have hroom := h x hx
  exact ⟨hroom.1.trans hlimit, hroom.2.trans hlimit⟩

theorem getElem?_of_prefix {l₁ l₂ full : List β} {b : β} (h : l₁ ++ b :: l₂ <+: full) : full[l₁.length]? = some b := by
  obtain ⟨rest, rfl⟩ := h
  simp

/-- An item at which a call with some buffer stops looks the same again. -/
theorem Agreed.same_of_split {full acc : List β} {k : ℕ} (h : B.Agreed l full) (hfits : B.Fits limit l)
    (hk : B.listed (fun _ => limit) l k = .ok (p ++ e :: r, acc)) (hpos : 0 < B.size e)
    (hlimit : limit < B.total p + B.size e + B.spare) (hbound : B.total p + B.size e < B.bound) :
    B.shown (B.again e) = B.shown e := by
  -- one buffer that is full in front of the item, and one that has room for it
  have hshort : B.fill (max limit (B.total p + B.spare)) 0 (p ++ e :: r) = (p, e :: r) := by
    rw [fill_fitting (by omega) (by omega), Nat.zero_add, fill_stop, List.append_nil]
    exact Or.inr (max_lt hlimit (by omega))
  have hlong : ∃ q r', B.fill (B.total p + B.size e + B.spare) 0 (p ++ e :: r) = (p ++ e :: q, r') := by
    have htotal : B.total (p ++ [e]) = B.total p + B.size e := by simp
    rw [List.append_cons, fill_fitting (by omega) (by omega), List.append_assoc]
    exact ⟨_, _, rfl⟩
  obtain ⟨q, r', hlong⟩ := hlong
  have hstopped := listed_instead hk (max limit (B.total p + B.spare))
  rw [hshort] at hstopped
  have hresumed := listed_succ hstopped
  have hfits₁ : ∀ n, B.Fits (Function.update (fun _ => limit) k (max limit (B.total p + B.spare)) n) l :=
    fits_instead hfits (le_max_left _ _)
  have hresume : B.resume (p, e :: r).2 = B.again e :: r := rfl
  have hleft := listed_fits (hfits₁ (k + 1)) hstopped
  rw [hresume] at hleft hresumed
  rw [hleft.fill_cons, List.map_cons] at hresumed
  have hpassed := listed_instead hk (B.total p + B.size e + B.spare)
  rw [hlong, List.map_append, List.map_cons, ← List.append_assoc] at hpassed
  have hfits₂ : ∀ n, B.Fits (Function.update (fun _ => limit) k (B.total p + B.size e + B.spare) n) l :=
    fits_instead hfits hlimit.le
  have hagain := getElem?_of_prefix ((h _ hfits₁).prefix_of_listed hfits₁ hresumed)
  have hwhole := getElem?_of_prefix ((h _ hfits₂).prefix_of_listed hfits₂ hpassed)
  rw [hwhole] at hagain
  exact (Option.some.inj hagain).symm

/-- Where all buffers give one listing, and an item behind the first looks different again, the
items up to it have room in each buffer that fits. -/
theorem Agreed.room {full acc : List β} {k : ℕ} (h : B.Agreed l full) (hfits : B.Fits limit l)
    (hpos : ∀ x, 0 < B.size x) (hbound : 4 * limit ≤ B.bound)
    (hk : B.listed (fun _ => limit) l k = .ok (p ++ e :: r, acc)) (hp : p ≠ [])
    (hdiffers : B.shown (B.again e) ≠ B.shown e) : B.total p + B.size e + B.spare ≤ limit := by
  induction hn : p.length using Nat.strong_induction_on generalizing k p acc with
  | _ n ih =>
    by_contra hroom
    have hsplit := listed_fits hfits hk
    have he := (hsplit e (List.mem_append_right p List.mem_cons_self)).1
    have hsmall : B.bound ≤ B.total p + B.size e := by
      by_contra hsmall
      exact hdiffers (h.same_of_split hfits hk (hpos e) (by omega) (by omega))
    have hfirst : (B.fill limit 0 (p ++ e :: r)).1 ≠ [] := hsplit.fill_ne_nil (by simp)
    have hfilled := (B.fill_room limit 0 (p ++ e :: r)).resolve_left hfirst
    have happend := B.fill_append limit 0 (p ++ e :: r)
    have hnext := listed_succ hk
    generalize (B.fill limit 0 (p ++ e :: r)).1 = q at *
    generalize (B.fill limit 0 (p ++ e :: r)).2 = t at *
    rcases List.append_eq_append_iff.mp happend with ⟨c, rfl, rfl⟩ | ⟨c, rfl, hc⟩
    · cases c with
      | nil =>
        rw [List.append_nil] at hsmall
        have := hpos e
        omega
      | cons y c =>
        -- the next call begins in front of the item, and by induction passes it
        have hlater := ih (B.again y :: c).length (by
          have := List.length_pos_iff.mpr hfirst
          simp only [List.length_append, List.length_cons] at hn ⊢
          omega) hnext (List.cons_ne_nil _ _) rfl
        have hy := (hsplit y (by simp)).1
        have := hpos e
        simp only [total_append, total_cons] at hsmall hlater
        omega
    · cases c with
      | nil =>
        rw [List.append_nil] at hfilled
        have := hpos e
        omega
      | cons y c =>
        obtain ⟨rfl, -⟩ := List.cons.inj hc
        rw [total_append, total_cons] at hfilled
        omega

/-- The item that takes most. -/
theorem exists_largest (hl : l ≠ []) : ∃ x ∈ l, ∀ y ∈ l,
    max (B.size y) (B.size (B.again y)) ≤ max (B.size x) (B.size (B.again x)) := by
  cases hx : l.argmax fun x => max (B.size x) (B.size (B.again x)) with
  | none => exact absurd (List.argmax_eq_none.mp hx) hl
  | some x => exact ⟨x, List.argmax_mem hx, fun y hy => List.le_of_mem_argmax hy hx⟩

/-- Where all buffers give one listing, no item but the first one looks different again. It
is enough that no item that comes again takes as much as two others, and that one that looks
the same again does not take less. -/
theorem Agreed.same {full : List β} (h : B.Agreed l full) (hpos : ∀ x, 0 < B.size x)
    (hbound : ∀ x ∈ l, 4 * (max (B.size x) (B.size (B.again x)) + B.spare) ≤ B.bound)
    (hagain : ∀ x ∈ l, ∀ y ∈ l, ∀ z ∈ l, B.size (B.again x) < B.size y + B.size z)
    (hsame : ∀ x ∈ l, B.shown (B.again x) = B.shown x → B.size x ≤ B.size (B.again x)) :
    ∀ x ∈ l.tail, B.shown (B.again x) = B.shown x := by
  cases l with
  | nil => exact fun x hx => by cases hx
  | cons y l =>
    intro x hx
    by_contra hdiffers
    obtain ⟨p, r, rfl⟩ := List.append_of_mem hx
    obtain ⟨f, hf, hlargest⟩ := B.exists_largest (List.cons_ne_nil y (p ++ x :: r))
    have hfits : B.Fits (max (B.size f) (B.size (B.again f)) + B.spare) (y :: p ++ x :: r) := by
      intro z hz
      have hz := hlargest z hz
      omega
    have hroom := h.room hfits hpos (hbound f hf) (k := 0) rfl (List.cons_ne_nil y p) hdiffers
    have htwo := hagain f hf y (by simp) x (by simp)
    rw [total_cons] at hroom
    have hlarge : B.size (B.again f) < B.size f := by omega
    have hdiffers' : B.shown (B.again f) ≠ B.shown f := fun heq => absurd (hsame f hf heq) (by omega)
    have hy := hpos y
    have hx := hpos x
    -- the item that takes most is behind the first two, and has no room behind them
    rw [← List.cons_append] at hf
    rcases List.mem_append.mp hf with hf | hf
    · have hle : B.size f ≤ B.total (y :: p) := size_le_total hf
      rw [total_cons] at hle
      omega
    · rcases List.mem_cons.mp hf with rfl | hf
      · omega
      · obtain ⟨q, s, rfl⟩ := List.append_of_mem hf
        have hk : B.listed (fun _ => max (B.size f) (B.size (B.again f)) + B.spare) (y :: (p ++ x :: (q ++ f :: s))) 0 =
            .ok ((y :: p ++ x :: q) ++ f :: s, []) := by
          simp [listed, Cursor.listed]
        have hlater := h.room hfits hpos (hbound f (by simp)) hk (by simp) hdiffers'
        simp only [total_append, total_cons] at hlater
        omega

end Batching

end DualFuse.Library
