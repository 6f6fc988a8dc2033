import DualFuse.Syscalls.Futex

/-! What the futex calls are for: each key has a queue, `FUTEX_WAKE` wakes the first
waiters of it in order, and `FUTEX_REQUEUE` moves the next ones to the end of another.
The lists of the kernel follow these queues in every run, except that a requeue onto
the queue itself meets the waiters that it has moved and moves them again. -/

namespace DualFuse.Syscalls

open Library Utility Multitasking

/-- The waiters by address, each with whether it was awoken. -/
abbrev FutexQueue := List (ℕ × Bool)

namespace FutexQueue

def asleepCount (q : FutexQueue) : ℕ := q.countP fun w => !w.2

/-- The first `n` waiters that are asleep are woken. -/
def wakeFirst : ℕ → FutexQueue → FutexQueue
  | _, [] => []
  | n, (a, true) :: q => (a, true) :: wakeFirst n q
  | 0, (a, false) :: q => (a, false) :: wakeFirst 0 q
  | n + 1, (a, false) :: q => (a, true) :: wakeFirst n q

/-- The first `n` waiters that are asleep. -/
def takeAsleep : ℕ → FutexQueue → FutexQueue
  | _, [] => []
  | n, (_, true) :: q => takeAsleep n q
  | 0, (_, false) :: _ => []
  | n + 1, (a, false) :: q => (a, false) :: takeAsleep n q

/-- The queue without them. -/
def dropAsleep : ℕ → FutexQueue → FutexQueue
  | _, [] => []
  | n, (a, true) :: q => (a, true) :: dropAsleep n q
  | 0, (a, false) :: q => (a, false) :: q
  | n + 1, (_, false) :: q => dropAsleep n q

/-- The address of the first waiter, or zero. -/
def first (q : FutexQueue) : ℕ := (q.map Prod.fst).headD 0

@[simp] theorem first_nil : first [] = 0 := rfl

@[simp] theorem first_cons (w : ℕ × Bool) (q : FutexQueue) : first (w :: q) = w.1 := rfl

@[simp] theorem asleepCount_nil : asleepCount [] = 0 := rfl

@[simp] theorem asleepCount_true (a : ℕ) (q : FutexQueue) : asleepCount ((a, true) :: q) = asleepCount q := by
  simp [asleepCount]

@[simp] theorem asleepCount_false (a : ℕ) (q : FutexQueue) : asleepCount ((a, false) :: q) = asleepCount q + 1 := by
  simp [asleepCount]

@[simp] theorem wakeFirst_zero (q : FutexQueue) : wakeFirst 0 q = q := by
  induction q with
  | nil => rfl
  | cons w q ih => rcases w with ⟨a, _ | _⟩ <;> simp [wakeFirst, ih]

@[simp] theorem takeAsleep_zero (q : FutexQueue) : takeAsleep 0 q = [] := by
  induction q with
  | nil => rfl
  | cons w q ih => rcases w with ⟨a, _ | _⟩ <;> simp [takeAsleep, ih]

@[simp] theorem dropAsleep_zero (q : FutexQueue) : dropAsleep 0 q = q := by
  induction q with
  | nil => rfl
  | cons w q ih => rcases w with ⟨a, _ | _⟩ <;> simp [dropAsleep, ih]

theorem first_append {q q' : FutexQueue} (h : q ≠ []) : first (q ++ q') = first q := by
  cases q with
  | nil => exact absurd rfl h
  | cons w q => rfl

theorem mem_dropLast_cons {w v : ℕ × Bool} {q : FutexQueue} (h : w ∈ q.dropLast) : w ∈ (v :: q).dropLast := by
  cases q with
  | nil => exact absurd h List.not_mem_nil
  | cons u q => exact List.mem_cons_of_mem _ h

end FutexQueue

/-- The queues by key, and what the calls returned. -/
structure FutexQueues where
  queue : ℕ → FutexQueue
  returned : List ℕ

namespace FutexQueues

open FutexQueue

def start : FutexQueues := ⟨fun _ => [], []⟩

def setQueue (q : FutexQueues) (k : ℕ) (l : FutexQueue) : FutexQueues :=
  { q with queue := Function.update q.queue k l }

def push (q : FutexQueues) (k : ℕ) (l : FutexQueue) : FutexQueues := q.setQueue k (q.queue k ++ l)

def ret (q : FutexQueues) (n : ℕ) : FutexQueues := { q with returned := n :: q.returned }

variable (virtualToPhysical : ℕ → ℕ)

open Classical in
/-- What each call does. -/
noncomputable def step (q : FutexQueues) : FutexEvent → FutexQueues
  | .wait addr word value _ newAsleep =>
    if addr = 0 ∨ addr % 4 ≠ 0 then q.ret (err einval)
    else if word ≠ value then q.ret (err eagain)
    else q.push (virtualToPhysical addr) [(newAsleep, false)]
  | .exit asleep signalPending =>
    { queue := fun k => (q.queue k).filter fun w => w.1 ≠ asleep
      returned := (if ∃ k, (asleep, true) ∈ q.queue k then 0 else if signalPending then err eintr
        else err etimedout) :: q.returned }
  | .wake addr value _ =>
    let k := virtualToPhysical addr
    if addr = 0 ∨ addr % 4 ≠ 0 then q.ret (err einval)
    else (q.setQueue k (wakeFirst value (q.queue k))).ret (min value (asleepCount (q.queue k)))
  | .requeue addr addr2 value val2 _ _ =>
    let k := virtualToPhysical addr
    let woken := wakeFirst value (q.queue k)
    if addr = 0 ∨ addr % 4 ≠ 0 then q.ret (err einval)
    else if addr2 = 0 ∨ addr2 % 4 ≠ 0 then q.ret (err einval)
    else ((q.setQueue k (dropAsleep val2 woken)).push (virtualToPhysical addr2) (takeAsleep val2 woken)).ret
      (min value (asleepCount (q.queue k)) + min val2 (asleepCount woken))

def addresses (q : FutexQueues) (k : ℕ) : List ℕ := (q.queue k).map Prod.fst

variable {q : FutexQueues} {k k' : ℕ} {l : FutexQueue}

@[simp] theorem queue_setQueue : (q.setQueue k l).queue k = l := Function.update_self _ _ _

theorem queue_setQueue_of_ne (h : k' ≠ k) : (q.setQueue k l).queue k' = q.queue k' := Function.update_of_ne h _ _

theorem addresses_setQueue : (q.setQueue k l).addresses = Function.update q.addresses k (l.map Prod.fst) := by
  funext k'
  by_cases h : k' = k
  · rw [h, addresses, queue_setQueue, Function.update_self]
  · rw [addresses, queue_setQueue_of_ne h, Function.update_of_ne h, addresses]

theorem setQueue_queue : q.setQueue k (q.queue k) = q := by
  rw [setQueue, Function.update_eq_self]

@[simp] theorem setQueue_setQueue {l' : FutexQueue} : (q.setQueue k l).setQueue k l' = q.setQueue k l' := by
  rw [setQueue, setQueue, setQueue]
  dsimp only
  rw [Function.update_idem]

theorem setQueue_push_of_ne {l' l'' : FutexQueue} (h : k' ≠ k) :
    ((q.setQueue k l).push k' l').setQueue k l'' = (q.setQueue k l'').push k' l' := by
  rw [push, push, queue_setQueue_of_ne h, queue_setQueue_of_ne h]
  simp only [setQueue, Function.update_comm h, Function.update_idem]

theorem push_push {l' : FutexQueue} : (q.push k l).push k l' = q.push k (l ++ l') := by
  rw [push, push, push, queue_setQueue, setQueue_setQueue, List.append_assoc]

theorem push_nil : q.push k [] = q := by rw [push, List.append_nil, setQueue_queue]

end FutexQueues

namespace FutexSystem

open FutexQueue

/-- The tree finds the futex of every key, and the list of each holds the waiters of
the key's queue; a waiter is in one queue. -/
structure Lists (s : FutexSystem) (m : AvlHeader.Entries) (q : ℕ → List ℕ) : Prop where
  tree : AvlHeader.Represents s.firstFutex m
  treeLock : s.lockAvlFutex = ⟨false⟩
  null : s.links 0 = none
  futex : ∀ k a, m k = some a → a ≠ 0 ∧ ∃ ll, s.futexes a = some ⟨⟨false⟩, ll⟩ ∧ ll.Holds futexAsleepSize s.links (q k)
  empty : ∀ k, m k = none → q k = []
  injective : ∀ k k' a, m k = some a → m k' = some a → k = k'
  nodup : ∀ k, (q k).Nodup
  apart : ∀ k k' x, x ∈ q k → x ∈ q k' → k = k'

/-- Beside this, every waiter is in the queue of the futex that it names. -/
structure Keeps (s : FutexSystem) (m : AvlHeader.Entries) (q : FutexQueues) : Prop extends s.Lists m q.addresses where
  returned : s.returned = q.returned
  waiter : ∀ k a, m k = some a → ∀ w ∈ q.queue k, s.asleep w.1 = some ⟨a, w.2⟩
  listed : ∀ x w, s.asleep x = some w → ∃ k, x ∈ q.addresses k
  bounded : ∃ all : List ℕ, all.length = s.allocated ∧ ∀ k, ∀ x ∈ q.addresses k, x ∈ all

theorem keeps_start : start.Keeps (fun _ => none) .start where
  tree := AvlHeader.represents_nil
  treeLock := rfl
  null := rfl
  futex := fun _ _ h => (by cases h)
  empty := fun _ _ => rfl
  injective := fun _ _ _ h => (by cases h)
  nodup := fun _ => List.nodup_nil
  apart := fun _ _ _ h => absurd h List.not_mem_nil
  returned := rfl
  waiter := fun _ _ h => (by cases h)
  listed := fun _ _ h => (by cases h)
  bounded := ⟨[], rfl, fun _ _ h => absurd h List.not_mem_nil⟩

section
variable {s s' : FutexSystem} {m : AvlHeader.Entries} {k a : ℕ}

/-- One list changes, and the links of the others do not. -/
theorem Lists.replace {q : ℕ → List ℕ} (h : s.Lists m q) (hk : m k = some a) {ll : LLcontrol} {l : List ℕ}
    (htree : s'.firstFutex = s.firstFutex) (hlock : s'.lockAvlFutex = s.lockAvlFutex)
    (hfutexes : s'.futexes = Function.update s.futexes a (some ⟨⟨false⟩, ll⟩)) (hnull : s'.links 0 = none)
    (hholds : ll.Holds futexAsleepSize s'.links l) (hnodup : l.Nodup)
    (hapart : ∀ k' ≠ k, ∀ x ∈ q k', x ∉ l ∧ s'.links x = s.links x) :
    s'.Lists m (Function.update q k l) := by
  have hself : Function.update q k l k = l := Function.update_self _ _ _
  have hother : ∀ k', k' ≠ k → Function.update q k l k' = q k' := fun k' hne => Function.update_of_ne hne _ _
  constructor
  · rw [htree]
    exact h.tree
  · rw [hlock]
    exact h.treeLock
  · exact hnull
  · intro k' a' hk'
    rw [hfutexes]
    by_cases hne : k' = k
    · subst hne
      cases hk.symm.trans hk'
      rw [hself, Function.update_self]
      exact ⟨(h.futex k' a hk).1, ll, rfl, hholds⟩
    · have ha : a' ≠ a := fun heq => hne (h.injective k' k a (heq ▸ hk') hk)
      obtain ⟨hzero, ll', hfutex, hold⟩ := h.futex k' a' hk'
      rw [hother k' hne, Function.update_of_ne ha]
      exact ⟨hzero, ll', hfutex, hold.normal, hold.path.congr fun x hx => (hapart k' hne x hx).2⟩
  · intro k' hk'
    have hne : k' ≠ k := by
      rintro rfl
      rw [hk] at hk'
      cases hk'
    rw [hother k' hne]
    exact h.empty k' hk'
  · exact h.injective
  · intro k'
    by_cases hne : k' = k
    · rw [hne, hself]
      exact hnodup
    · rw [hother k' hne]
      exact h.nodup k'
  · intro k₁ k₂ x h₁ h₂
    by_cases hne₁ : k₁ = k
    · by_cases hne₂ : k₂ = k
      · rw [hne₁, hne₂]
      · rw [hne₁, hself] at h₁
        rw [hother k₂ hne₂] at h₂
        exact absurd h₁ (hapart k₂ hne₂ x h₂).1
    · rw [hother k₁ hne₁] at h₁
      by_cases hne₂ : k₂ = k
      · rw [hne₂, hself] at h₂
        exact absurd h₂ (hapart k₁ hne₁ x h₁).1
      · rw [hother k₂ hne₂] at h₂
        exact h.apart k₁ k₂ x h₁ h₂

variable {q : FutexQueues} {l l' : FutexQueue} {x : ℕ} {b : Bool}

theorem Keeps.length_le (h : s.Keeps m q) (k : ℕ) : (q.queue k).length ≤ s.allocated := by
  obtain ⟨all, hall, hmem⟩ := h.bounded
  have hsub := (List.subperm_of_subset (h.nodup k) fun x hx => hmem k x hx).length_le
  rw [hall, FutexQueues.addresses, List.length_map] at hsub
  exact hsub

theorem Keeps.exists_futex (h : s.Keeps m q) (hx : x ∈ q.addresses k) : ∃ a, m k = some a := by
  cases hk : m k with
  | none =>
    rw [h.empty k hk] at hx
    exact absurd hx List.not_mem_nil
  | some a => exact ⟨a, rfl⟩

theorem Keeps.read_eq (h : s.Keeps m q) (hk : m k = some a) (hx : (x, b) ∈ q.queue k) : s.read x = .ok ⟨a, b⟩ := by
  rw [read, h.waiter k a hk (x, b) hx]

theorem Keeps.first_eq (h : s.Keeps m q) (hk : m k = some a) :
    ∃ ll, s.futex a = .ok ⟨⟨false⟩, ll⟩ ∧ ll.firstObject = first (q.queue k) := by
  obtain ⟨-, ll, hfutex, hholds⟩ := h.futex k a hk
  refine ⟨ll, ?_, hholds.path.eq_headD⟩
  rw [futex, hfutex]

/-- In the list the waiter behind comes next. -/
theorem Keeps.next_eq (h : s.Keeps m q) (hk : m k = some a) (hq : q.queue k = l ++ (x, b) :: l') :
    s.links.next x = .ok (first l') := by
  obtain ⟨-, ll, -, hholds⟩ := h.futex k a hk
  have hpath := hholds.path
  rw [FutexQueues.addresses, hq, List.map_append, List.map_cons] at hpath
  obtain ⟨_, -, -, n, hn, hrest⟩ := Path.append_iff.mp hpath
  rw [Links.next_eq hn, hrest.eq_headD, first]

theorem Keeps.ne_zero (h : s.Keeps m q) (hk : m k = some a) (hq : q.queue k = l ++ (x, b) :: l') : x ≠ 0 := by
  rintro rfl
  have hnext := h.next_eq hk hq
  rw [Links.next, h.null] at hnext
  cases hnext

/-- A waiter is woken. -/
theorem Keeps.wakeOne (h : s.Keeps m q) (hk : m k = some a) (hq : q.queue k = l ++ (x, b) :: l') :
    (s.write x ⟨a, true⟩).Keeps m (q.setQueue k (l ++ (x, true) :: l')) := by
  have hsame : (q.setQueue k (l ++ (x, true) :: l')).addresses = q.addresses := by
    rw [FutexQueues.addresses_setQueue, ← Function.update_eq_self k q.addresses, Function.update_idem,
      FutexQueues.addresses, hq]
    simp
  have hnodup := h.nodup k
  rw [FutexQueues.addresses, hq, List.map_append, List.map_cons, List.nodup_append] at hnodup
  have hself : (s.write x ⟨a, true⟩).asleep x = some ⟨a, true⟩ := Function.update_self _ _ _
  have hother : ∀ y, y ≠ x → (s.write x ⟨a, true⟩).asleep y = s.asleep y := fun y hy => Function.update_of_ne hy _ _
  constructor
  · rw [hsame]
    exact ⟨h.tree, h.treeLock, h.null, h.futex, h.empty, h.injective, h.nodup, h.apart⟩
  · exact h.returned
  · intro k' a' hk' w hw
    by_cases hx : w.1 = x
    · have hmem : w.1 ∈ q.addresses k' := by
        rw [← hsame]
        exact List.mem_map_of_mem hw
      have hxk : x ∈ q.addresses k := by
        rw [FutexQueues.addresses, hq]
        simp
      have hkk := h.apart k' k x (hx ▸ hmem) hxk
      subst hkk
      cases hk.symm.trans hk'
      rw [FutexQueues.queue_setQueue] at hw
      rw [hx, hself]
      rcases List.mem_append.mp hw with hw | hw
      · exact absurd hx (hnodup.2.2 w.1 (List.mem_map_of_mem hw) x List.mem_cons_self)
      · rcases List.mem_cons.mp hw with rfl | hw
        · rfl
        · have hmem : w.1 ∈ l'.map Prod.fst := List.mem_map_of_mem hw
          rw [hx] at hmem
          exact absurd hmem (List.nodup_cons.mp hnodup.2.1).1
    · rw [hother w.1 hx]
      by_cases hkk : k' = k
      · subst hkk
        rw [FutexQueues.queue_setQueue] at hw
        refine h.waiter k' a' hk' w ?_
        rw [hq]
        simp only [List.mem_append, List.mem_cons] at hw ⊢
        rcases hw with hw | rfl | hw
        · exact .inl hw
        · exact absurd rfl hx
        · exact .inr (.inr hw)
      · rw [FutexQueues.queue_setQueue_of_ne hkk] at hw
        exact h.waiter k' a' hk' w hw
  · intro y w hy
    rw [hsame]
    by_cases hx : y = x
    · refine ⟨k, ?_⟩
      rw [hx, FutexQueues.addresses, hq]
      simp
    · exact h.listed y w (by rw [← hother y hx]; exact hy)
  · rw [hsame]
    exact h.bounded

/-- The waiters of a queue other than one of them, and where they are. -/
theorem Keeps.mem_detached (h : s.Keeps m q) (hq : q.queue k = l ++ (x, b) :: l') {k' : ℕ} {w : ℕ × Bool} :
    w ∈ (q.setQueue k (l ++ l')).queue k' ↔ w ∈ q.queue k' ∧ w.1 ≠ x := by
  have hnodup := h.nodup k
  rw [FutexQueues.addresses, hq, List.map_append, List.map_cons, List.nodup_middle, List.nodup_cons,
    ← List.map_append] at hnodup
  have hx : x ∈ q.addresses k := by
    rw [FutexQueues.addresses, hq]
    simp
  by_cases hk : k' = k
  · subst hk
    rw [FutexQueues.queue_setQueue, hq]
    constructor
    · intro hw
      have hmem : w.1 ∈ (l ++ l').map Prod.fst := List.mem_map_of_mem hw
      refine ⟨?_, fun heq => hnodup.1 (heq ▸ hmem)⟩
      simp only [List.mem_append, List.mem_cons] at hw ⊢
      tauto
    · rintro ⟨hw, hne⟩
      simp only [List.mem_append, List.mem_cons] at hw ⊢
      rcases hw with hw | rfl | hw
      · exact .inl hw
      · exact absurd rfl hne
      · exact .inr hw
  · rw [FutexQueues.queue_setQueue_of_ne hk]
    refine ⟨fun hw => ⟨hw, fun heq => hk (h.apart k' k x ?_ hx)⟩, And.left⟩
    rw [← heq]
    exact List.mem_map_of_mem hw

/-- A waiter leaves its list, which keeps the order of the others. -/
theorem Keeps.unregister (h : s.Keeps m q) (hk : m k = some a) (hq : q.queue k = l ++ (x, b) :: l') :
    ∃ links ll ll', s.futex a = .ok ⟨⟨false⟩, ll⟩ ∧
      s.links.linkedListUnregister s.fuel ll futexAsleepSize x = .ok (links, ll', true) ∧
      ∀ o asleep returned, ({ s with
        futexes := Function.update s.futexes a (some ⟨⟨false⟩, ll'⟩)
        links := Function.update links x o
        asleep := asleep
        returned := returned } : FutexSystem).Lists m (q.setQueue k (l ++ l')).addresses := by
  obtain ⟨-, ll, hfutex, hholds⟩ := h.futex k a hk
  have hlength := h.length_le k
  have hnodup := h.nodup k
  have hx := h.ne_zero hk hq
  have haddr : q.addresses k = l.map Prod.fst ++ x :: l'.map Prod.fst := by
    rw [FutexQueues.addresses, hq]
    simp
  rw [haddr] at hholds hnodup
  rw [← List.length_map Prod.fst, ← FutexQueues.addresses, haddr] at hlength
  obtain ⟨links, ll', hunregister, hholds', hframe⟩ :=
    Links.linkedListUnregister_spec h.null hholds hnodup (Nat.lt_succ_of_le hlength)
  have hcons := List.nodup_middle.mp hnodup
  rw [List.nodup_cons] at hcons
  refine ⟨links, ll, ll', by rw [futex, hfutex], hunregister, fun o asleep returned => ?_⟩
  rw [FutexQueues.addresses_setQueue, List.map_append]
  refine h.toLists.replace hk rfl rfl rfl ?_ ⟨hholds'.normal, hholds'.path.congr fun y hy => ?_⟩ hcons.2
    fun k' hne y hy => ⟨fun hmem => ?_, ?_⟩
  · dsimp only
    rw [Function.update_of_ne hx.symm, hframe 0 ?_]
    · exact h.null
    · intro hzero
      obtain ⟨r, hr⟩ := hholds.path.linked (List.mem_append_left _ hzero)
      rw [h.null] at hr
      cases hr
  · have hne : y ≠ x := fun heq => hcons.1 (heq ▸ hy)
    exact Function.update_of_ne hne _ _
  · refine hne (h.apart k' k y hy ?_)
    rw [haddr]
    simp only [List.mem_append, List.mem_cons] at hmem ⊢
    tauto
  · have hmem : y ∉ q.addresses k := fun hmem => hne (h.apart k' k y hy hmem)
    rw [haddr, List.mem_append, List.mem_cons] at hmem
    have hyx : y ≠ x := by tauto
    dsimp only
    rw [Function.update_of_ne hyx, hframe y (by tauto)]

theorem Keeps.requeueMove (h : s.Keeps m q) (hk : m k = some a) {k2 a2 : ℕ} (hk2 : m k2 = some a2)
    (hq : q.queue k = l ++ (x, b) :: l') :
    ∃ s', s.requeueMove a a2 x = .ok s' ∧ s'.Keeps m ((q.setQueue k (l ++ l')).push k2 [(x, b)]) ∧
      s'.allocated = s.allocated := by
  obtain ⟨links, ll, ll', hfutex, hunregister, hlists⟩ := h.unregister hk hq
  specialize hlists (some 0) (Function.update s.asleep x (some ⟨a2, b⟩)) s.returned
  obtain ⟨-, ll2, hfutex2, hholds2⟩ := hlists.futex k2 a2 hk2
  have hxq : (x, b) ∈ q.queue k := by
    rw [hq]
    simp
  have hdetached : ∀ k', x ∉ (q.setQueue k (l ++ l')).addresses k' := by
    intro k' hmem
    obtain ⟨w, hw, rfl⟩ := List.mem_map.mp hmem
    exact ((h.mem_detached hq).mp hw).2 rfl
  have hlength : ((q.setQueue k (l ++ l')).addresses k2).length ≤ s.fuel := by
    obtain ⟨all, hall, hmem⟩ := h.bounded
    refine ((List.subperm_of_subset (hlists.nodup k2) fun y hy => ?_).length_le.trans hall.le).trans (Nat.le_succ _)
    obtain ⟨w, hw, rfl⟩ := List.mem_map.mp hy
    exact hmem k2 w.1 (List.mem_map_of_mem ((h.mem_detached hq).mp hw).1)
  obtain ⟨links2, ll2', hlast, hholds2', hframe2⟩ := Links.linkLast_spec hlists.null hholds2 (hlists.nodup k2)
    (Function.update_self _ _ _) (hdetached k2) hlength
  have hwaiter : s.asleep x = some ⟨a, b⟩ := h.waiter k a hk (x, b) hxq
  refine ⟨{ s with
    futexes := Function.update (Function.update s.futexes a (some ⟨⟨false⟩, ll'⟩)) a2 (some ⟨⟨false⟩, ll2'⟩)
    links := links2
    asleep := Function.update s.asleep x (some ⟨a2, b⟩) }, ?_, ?_, rfl⟩
  · dsimp only at hfutex2 hlast
    simp only [FutexSystem.requeueMove, hfutex, Exec.ok_bind, hunregister, if_true, setFutex, read, hwaiter,
      FutexSystem.write]
    simp only [futex, hfutex2, fuel, Exec.ok_bind] at hlast ⊢
    rw [hlast, Exec.ok_bind]
  · have haddr : ((q.setQueue k (l ++ l')).push k2 [(x, b)]).addresses =
        Function.update (q.setQueue k (l ++ l')).addresses k2 ((q.setQueue k (l ++ l')).addresses k2 ++ [x]) := by
      rw [FutexQueues.push, FutexQueues.addresses_setQueue, List.map_append]
      rfl
    have hmem : ∀ k' w, w ∈ ((q.setQueue k (l ++ l')).push k2 [(x, b)]).queue k' ↔
        (w ∈ q.queue k' ∧ w.1 ≠ x) ∨ (k' = k2 ∧ w = (x, b)) := by
      intro k' w
      rw [FutexQueues.push, ← h.mem_detached hq]
      by_cases hne : k' = k2
      · rw [hne, FutexQueues.queue_setQueue, List.mem_append, List.mem_singleton]
        tauto
      · rw [FutexQueues.queue_setQueue_of_ne hne]
        tauto
    constructor
    · rw [haddr]
      refine hlists.replace hk2 rfl rfl rfl ?_ hholds2' ?_ fun k' hne y hy => ⟨fun hy' => ?_, ?_⟩
      · dsimp only
        rw [hframe2 0 ?_]
        · exact hlists.null
        · intro hzero
          obtain ⟨r, hr⟩ := hholds2.path.linked hzero
          rw [hlists.null] at hr
          cases hr
      · exact List.nodup_append.mpr ⟨hlists.nodup k2, List.nodup_singleton x,
          fun y hy z hz heq => hdetached k2 (by rw [← List.mem_singleton.mp hz, ← heq]; exact hy)⟩
      · rcases List.mem_append.mp hy' with hy' | hy'
        · exact hne (hlists.apart k' k2 y hy hy')
        · exact hdetached k' (by rw [← List.mem_singleton.mp hy']; exact hy)
      · exact hframe2 y fun hy' => hne (hlists.apart k' k2 y hy hy')
    · exact h.returned
    · intro k' a' hk' w hw
      dsimp only
      rcases (hmem k' w).mp hw with ⟨hw, hne⟩ | ⟨rfl, rfl⟩
      · rw [Function.update_of_ne hne]
        exact h.waiter k' a' hk' w hw
      · cases hk2.symm.trans hk'
        rw [Function.update_self]
    · intro y w hy
      by_cases hyx : y = x
      · exact ⟨k2, List.mem_map.mpr ⟨(x, b), (hmem k2 _).mpr (.inr ⟨rfl, rfl⟩), hyx.symm⟩⟩
      · dsimp only at hy
        rw [Function.update_of_ne hyx] at hy
        obtain ⟨k', hk'⟩ := h.listed y w hy
        obtain ⟨w', hw', rfl⟩ := List.mem_map.mp hk'
        exact ⟨k', List.mem_map_of_mem ((hmem k' w').mpr (.inl ⟨hw', hyx⟩))⟩
    · obtain ⟨all, hall, hbound⟩ := h.bounded
      refine ⟨all, hall, fun k' y hy => ?_⟩
      obtain ⟨w, hw, rfl⟩ := List.mem_map.mp hy
      rcases (hmem k' w).mp hw with ⟨hw, -⟩ | ⟨-, rfl⟩
      · exact hbound k' w.1 (List.mem_map_of_mem hw)
      · exact hbound k x (List.mem_map_of_mem hxq)

theorem setFutex_eq_self {futex : Futex} (h : s.futexes a = some futex) : s.setFutex a futex = s := by
  rw [setFutex, ← h, Function.update_eq_self]

/-- No lock is ever held, so none is waited for. -/
theorem Lists.acquireProp {q : ℕ → List ℕ} (h : s.Lists m q) (hk : m k = some a) : s.acquireProp a = .ok s := by
  obtain ⟨-, ll, hfutex, -⟩ := h.futex k a hk
  rw [FutexSystem.acquireProp, FutexSystem.futex, hfutex]
  exact congrArg Except.ok (setFutex_eq_self hfutex)

theorem Lists.releaseProp {q : ℕ → List ℕ} (h : s.Lists m q) (hk : m k = some a) : s.releaseProp a = .ok s := by
  obtain ⟨-, ll, hfutex, -⟩ := h.futex k a hk
  rw [FutexSystem.releaseProp, FutexSystem.futex, hfutex]
  exact congrArg Except.ok (setFutex_eq_self hfutex)

theorem Keeps.exit (h : s.Keeps m q) (virtualToPhysical : ℕ → ℕ) {w : FutexAsleep} (hx : s.asleep x = some w)
    (signalPending : Bool) :
    ∃ s', s.exit x signalPending = .ok s' ∧ s'.Keeps m (q.step virtualToPhysical (.exit x signalPending)) := by
  obtain ⟨k, hmem⟩ := h.listed x w hx
  obtain ⟨⟨y, b⟩, hxq, rfl⟩ := List.mem_map.mp hmem
  obtain ⟨a, hk⟩ := h.exists_futex hmem
  obtain ⟨l, l', hq⟩ := List.append_of_mem hxq
  dsimp only at hx ⊢
  cases hx.symm.trans (h.waiter k a hk _ hxq)
  obtain ⟨links, ll, ll', hfutex, hunregister, hlists⟩ := h.unregister hk hq
  have hnormal : ll.linkedListNormal futexAsleepSize = .ok () := by
    obtain ⟨-, ll₁, hfutex₁, hholds⟩ := h.futex k a hk
    rw [futex, hfutex₁] at hfutex
    cases hfutex
    exact hholds.normal
  have hqueue : (fun k' => (q.queue k').filter fun w => w.1 ≠ y) = (q.setQueue k (l ++ l')).queue := by
    funext k'
    by_cases hkk : k' = k
    · subst hkk
      have hother : ∀ w ∈ l ++ l', w.1 ≠ y := by
        intro w hw
        rw [← FutexQueues.queue_setQueue (q := q) (k := k') (l := l ++ l'), h.mem_detached hq] at hw
        exact hw.2
      have hfilter : (l ++ l').filter (fun w => w.1 ≠ y) = l ++ l' :=
        List.filter_eq_self.mpr fun w hw => decide_eq_true (hother w hw)
      rw [FutexQueues.queue_setQueue, hq, List.filter_append, List.filter_cons_of_neg (by simp), ← List.filter_append,
        hfilter]
    · rw [FutexQueues.queue_setQueue_of_ne hkk]
      refine List.filter_eq_self.mpr fun w hw => decide_eq_true ?_
      rw [← FutexQueues.queue_setQueue_of_ne (q := q) (l := l ++ l') hkk, h.mem_detached hq] at hw
      exact hw.2
  have hreturn : (∃ k', (y, true) ∈ q.queue k') ↔ b = true := by
    constructor
    · rintro ⟨k', hk'⟩
      rw [h.apart k' k y (List.mem_map_of_mem hk') hmem] at hk'
      have htrue := h.waiter k a hk _ hk'
      rw [hx] at htrue
      exact congrArg FutexAsleep.awoken (Option.some.inj htrue)
    · rintro rfl
      exact ⟨k, hxq⟩
  refine ⟨{ s with
    futexes := Function.update s.futexes a (some ⟨⟨false⟩, ll'⟩)
    links := Function.update links y none
    asleep := Function.update s.asleep y none
    returned := (if b then 0 else if signalPending then err eintr else err etimedout) :: s.returned }, ?_, ?_⟩
  · simp only [FutexSystem.exit, read, hx, Exec.ok_bind, h.toLists.acquireProp hk, hfutex, Links.linkedListRemove,
      hnormal, hunregister, if_true, setFutex]
    exact (hlists none _ _).releaseProp hk
  · have haddr : (q.step virtualToPhysical (.exit y signalPending)).addresses = (q.setQueue k (l ++ l')).addresses :=
      funext fun k' => congrArg (List.map Prod.fst) (congrFun hqueue k')
    have hmem_iff : ∀ k' z, z ∈ (q.setQueue k (l ++ l')).addresses k' ↔ z ∈ q.addresses k' ∧ z ≠ y := by
      intro k' z
      simp only [FutexQueues.addresses, List.mem_map, h.mem_detached hq]
      constructor
      · rintro ⟨w, ⟨hw, hne⟩, rfl⟩
        exact ⟨⟨w, hw, rfl⟩, hne⟩
      · rintro ⟨⟨w, hw, rfl⟩, hne⟩
        exact ⟨w, ⟨hw, hne⟩, rfl⟩
    constructor
    · rw [haddr]
      exact hlists _ _ _
    · rw [FutexQueues.step, ← h.returned]
      simp only [hreturn]
    · intro k' a' hk' w hw
      have hw : w ∈ (fun k' => (q.queue k').filter fun w => w.1 ≠ y) k' := hw
      rw [hqueue, h.mem_detached hq] at hw
      dsimp only
      rw [Function.update_of_ne hw.2]
      exact h.waiter k' a' hk' w hw.1
    · intro z w hz
      dsimp only at hz
      by_cases hzy : z = y
      · rw [hzy, Function.update_self] at hz
        cases hz
      · rw [Function.update_of_ne hzy] at hz
        obtain ⟨k', hk'⟩ := h.listed z w hz
        rw [haddr]
        exact ⟨k', (hmem_iff k' z).mpr ⟨hk', hzy⟩⟩
    · obtain ⟨all, hall, hbound⟩ := h.bounded
      rw [haddr]
      exact ⟨all, hall, fun k' z hz => hbound k' z ((hmem_iff k' z).mp hz).1⟩

/-- The futex of a key is found or made. -/
theorem Keeps.futexLookup (h : s.Keeps m q) (phys : ℕ) {new : ℕ} (hzero : new ≠ 0) (hnew : s.futexes new = none) :
    ∃ s' m' a, s.futexLookup phys new = .ok (s', a) ∧ s'.Keeps m' q ∧ m' phys = some a ∧
      (∀ k a, m k = some a → m' k = some a) ∧ s'.asleep = s.asleep ∧
      ∀ c ≠ new, s.futexes c = none → s'.futexes c = none := by
  rw [FutexSystem.futexLookup, h.tree.avlLookup phys]
  cases hphys : m phys with
  | some a =>
    have ha := (h.futex phys a hphys).1
    exact ⟨s, m, a, if_pos ha, h, hphys, fun _ _ hk => hk, rfl, fun _ _ hc => hc⟩
  | none =>
    obtain ⟨t, ht, htree⟩ := h.tree.avlAllocate new hphys
    have hinit : LLcontrol.zero.linkedListInit futexAsleepSize =
        .ok ⟨llSignature1, llSignature2, futexAsleepSize, 0⟩ := rfl
    have hold : ∀ k a, m k = some a → k ≠ phys ∧ a ≠ new := by
      intro k a hk
      refine ⟨fun heq => ?_, fun heq => ?_⟩
      · rw [heq, hphys] at hk
        cases hk
      · obtain ⟨-, ll, hfutex, -⟩ := h.futex k a hk
        rw [heq, hnew] at hfutex
        cases hfutex
    have hcases : ∀ k a, AvlHeader.Entries.step m (.allocate phys new) k = some a →
        (k = phys ∧ a = new) ∨ (k ≠ phys ∧ m k = some a) := by
      intro k a hk
      rw [AvlHeader.Entries.step] at hk
      by_cases hkk : k = phys
      · rw [hkk, Function.update_self] at hk
        exact .inl ⟨hkk, (Option.some.inj hk).symm⟩
      · rw [Function.update_of_ne hkk] at hk
        exact .inr ⟨hkk, hk⟩
    refine ⟨{ s with firstFutex := t }.setFutex new ⟨⟨false⟩, ⟨llSignature1, llSignature2, futexAsleepSize, 0⟩⟩,
      AvlHeader.Entries.step m (.allocate phys new), new, ?_, ?_, Function.update_self _ _ _,
      fun k a hk => ?_, rfl, fun c hc hfree => ?_⟩
    · rw [Option.getD_none, if_neg (by simp), ht, Exec.ok_bind, hinit, Exec.ok_bind]
    · refine ⟨⟨htree, h.treeLock, h.null, fun k a hk => ?_, fun k hk => ?_, fun k k' a hk hk' => ?_, h.nodup, h.apart⟩,
        h.returned, fun k a hk w hw => ?_, h.listed, h.bounded⟩
      · rcases hcases k a hk with ⟨rfl, rfl⟩ | ⟨hkk, hk⟩
        · rw [h.empty k hphys]
          exact ⟨hzero, _, Function.update_self _ _ _, rfl, rfl⟩
        · obtain ⟨ha, ll, hfutex, hholds⟩ := h.futex k a hk
          exact ⟨ha, ll, (Function.update_of_ne (hold k a hk).2 _ _).trans hfutex, hholds⟩
      · have hkk : k ≠ phys := by
          rintro rfl
          rw [AvlHeader.Entries.step, Function.update_self] at hk
          cases hk
        rw [AvlHeader.Entries.step, Function.update_of_ne hkk] at hk
        exact h.empty k hk
      · rcases hcases k a hk with ⟨hkk, ha⟩ | ⟨-, hm⟩
        · rcases hcases k' a hk' with ⟨hkk', -⟩ | ⟨-, hm'⟩
          · rw [hkk, hkk']
          · exact absurd ha (hold k' a hm').2
        · rcases hcases k' a hk' with ⟨-, ha⟩ | ⟨-, hm'⟩
          · exact absurd ha (hold k a hm).2
          · exact h.injective k k' a hm hm'
      · rcases hcases k a hk with ⟨rfl, -⟩ | ⟨-, hk⟩
        · have hnone : w.1 ∈ q.addresses k := List.mem_map_of_mem hw
          rw [h.empty k hphys] at hnone
          exact absurd hnone List.not_mem_nil
        · exact h.waiter k a hk w hw
    · exact (Function.update_of_ne (hold k a hk).1 _ _).trans hk
    · exact (Function.update_of_ne hc _ _).trans hfree

theorem Keeps.futexFind (h : s.Keeps m q) (phys : ℕ) {new : ℕ} (hzero : new ≠ 0) (hnew : s.futexes new = none) :
    ∃ s' m' a, s.futexFind phys new = .ok (s', a) ∧ s'.Keeps m' q ∧ m' phys = some a ∧
      (∀ k a, m k = some a → m' k = some a) ∧ s'.asleep = s.asleep ∧
      ∀ c ≠ new, s.futexes c = none → s'.futexes c = none := by
  obtain ⟨s', m', a, hlookup, h', hphys, hrest⟩ := h.futexLookup phys hzero hnew
  have hlock : acquireAlone s.lockAvlFutex = .ok s.lockAvlFutex := by
    rw [h.treeLock]
    rfl
  have hrelease : { s' with lockAvlFutex := s'.lockAvlFutex.spinlockRelease } = s' := by
    rw [show s'.lockAvlFutex.spinlockRelease = s'.lockAvlFutex from h'.treeLock.symm]
  refine ⟨s', m', a, ?_, h', hphys, hrest⟩
  rw [FutexSystem.futexFind, hlock, Exec.ok_bind, hlookup, Exec.ok_bind]
  dsimp only
  rw [h'.toLists.acquireProp hphys, Exec.ok_bind, hrelease]

theorem Keeps.wait (h : s.Keeps m q) (phys : ℕ) {newFutex newAsleep : ℕ} (hzero : newFutex ≠ 0)
    (hnew : s.futexes newFutex = none) (hzero' : newAsleep ≠ 0) (hnew' : s.asleep newAsleep = none) :
    ∃ s' m', s.wait phys newFutex newAsleep = .ok s' ∧ s'.Keeps m' (q.push phys [(newAsleep, false)]) := by
  obtain ⟨s, m, a, hfind, h, hphys, -, hasleep, -⟩ := h.futexFind phys hzero hnew
  rw [← hasleep] at hnew'
  have hfresh : ∀ k, newAsleep ∉ q.addresses k := by
    intro k hmem
    obtain ⟨a', hk⟩ := h.exists_futex hmem
    obtain ⟨w, hw, rfl⟩ := List.mem_map.mp hmem
    rw [h.waiter k a' hk w hw] at hnew'
    cases hnew'
  obtain ⟨-, ll, hfutex, hholds⟩ := h.futex phys a hphys
  have hlength : (q.addresses phys).length ≤ s.fuel := by
    rw [FutexQueues.addresses, List.length_map]
    exact (h.length_le phys).trans (Nat.le_succ _)
  obtain ⟨links, ll', hallocate, hholds', hframe⟩ :=
    Links.linkedListAllocate_spec h.null hholds (h.nodup phys) hzero' (hfresh phys) hlength
  have haddr : (q.push phys [(newAsleep, false)]).addresses =
      Function.update q.addresses phys (q.addresses phys ++ [newAsleep]) := by
    rw [FutexQueues.push, FutexQueues.addresses_setQueue, List.map_append]
    rfl
  have hmem : ∀ k w, w ∈ (q.push phys [(newAsleep, false)]).queue k ↔
      w ∈ q.queue k ∨ (k = phys ∧ w = (newAsleep, false)) := by
    intro k w
    rw [FutexQueues.push]
    by_cases hk : k = phys
    · rw [hk, FutexQueues.queue_setQueue, List.mem_append, List.mem_singleton]
      tauto
    · rw [FutexQueues.queue_setQueue_of_ne hk]
      tauto
  have hlists : ({ s with
      futexes := Function.update s.futexes a (some ⟨⟨false⟩, ll'⟩)
      links := links
      asleep := Function.update s.asleep newAsleep (some ⟨a, false⟩)
      allocated := s.allocated + 1 } : FutexSystem).Lists m (q.push phys [(newAsleep, false)]).addresses := by
    rw [haddr]
    refine h.toLists.replace hphys rfl rfl rfl ?_ hholds' ?_ fun k hk x hx => ⟨fun hx' => ?_, ?_⟩
    · dsimp only
      rw [hframe 0 (fun hmem => ?_) hzero'.symm]
      · exact h.null
      · obtain ⟨r, hr⟩ := hholds.path.linked hmem
        rw [h.null] at hr
        cases hr
    · exact List.nodup_append.mpr ⟨h.nodup phys, List.nodup_singleton _,
        fun y hy z hz heq => hfresh phys (by rw [← List.mem_singleton.mp hz, ← heq]; exact hy)⟩
    · rcases List.mem_append.mp hx' with hx' | hx'
      · exact hk (h.apart k phys x hx hx')
      · exact hfresh k (by rw [← List.mem_singleton.mp hx']; exact hx)
    · exact hframe x (fun hx' => hk (h.apart k phys x hx hx')) fun heq => hfresh k (heq ▸ hx)
  refine ⟨_, m, ?_, hlists, h.returned, fun k a' hk w hw => ?_, fun x w hx => ?_, ?_⟩
  · simp only [FutexSystem.wait, hfind, Exec.ok_bind, futex, hfutex, hallocate, setFutex, FutexSystem.write]
    exact hlists.releaseProp hphys
  · dsimp only
    rcases (hmem k w).mp hw with hw | ⟨rfl, rfl⟩
    · have hne : w.1 ≠ newAsleep := fun heq => hfresh k (heq ▸ List.mem_map_of_mem hw)
      rw [Function.update_of_ne hne]
      exact h.waiter k a' hk w hw
    · cases hphys.symm.trans hk
      rw [Function.update_self]
  · by_cases hne : x = newAsleep
    · exact ⟨phys, List.mem_map.mpr ⟨_, (hmem phys _).mpr (.inr ⟨rfl, rfl⟩), hne.symm⟩⟩
    · dsimp only at hx
      rw [Function.update_of_ne hne] at hx
      obtain ⟨k, hk⟩ := h.listed x w hx
      obtain ⟨w', hw', rfl⟩ := List.mem_map.mp hk
      exact ⟨k, List.mem_map_of_mem ((hmem k w').mpr (.inl hw'))⟩
  · obtain ⟨all, hall, hbound⟩ := h.bounded
    refine ⟨newAsleep :: all, by rw [List.length_cons, hall], fun k x hx => ?_⟩
    obtain ⟨w, hw, rfl⟩ := List.mem_map.mp hx
    rcases (hmem k w).mp hw with hw | ⟨-, rfl⟩
    · exact List.mem_cons_of_mem _ (hbound k w.1 (List.mem_map_of_mem hw))
    · exact List.mem_cons_self

end

end FutexSystem

end DualFuse.Syscalls
