import DualFuse.Syscalls.FutexQueues

/-! The loops of `FUTEX_WAKE` and `FUTEX_REQUEUE` over the waiters that are still to
come, and all runs of futex calls. -/

namespace DualFuse.Syscalls

open Library Utility Multitasking

namespace FutexSystem

open FutexQueue

section
variable {s s' : FutexSystem} {m : AvlHeader.Entries} {k a : ℕ} {q : FutexQueues} {l l' : FutexQueue} {x : ℕ} {b : Bool}

/-! ### The loops -/

/-- Induction on the waiters that are still to come. -/
theorem Keeps.wakeLoop (h : s.Keeps m q) (hk : m k = some a) {rest : FutexQueue} (hq : q.queue k = l ++ rest)
    {fuel : ℕ} (hfuel : rest.length < fuel) (value cnt : ℕ) :
    ∃ s', wakeLoop value fuel s (first rest) cnt = .ok (s', cnt + min (value - cnt) (asleepCount rest)) ∧
      s'.Keeps m (q.setQueue k (l ++ wakeFirst (value - cnt) rest)) := by
  induction rest generalizing s q l fuel cnt with
  | nil =>
    obtain ⟨fuel, rfl⟩ : ∃ n, fuel = n + 1 := ⟨fuel - 1, by omega⟩
    refine ⟨s, by simp [FutexSystem.wakeLoop], ?_⟩
    rw [wakeFirst, ← hq, FutexQueues.setQueue_queue]
    exact h
  | cons w rest ih =>
    obtain ⟨x, b⟩ := w
    obtain ⟨fuel, rfl⟩ : ∃ n, fuel = n + 1 := ⟨fuel - 1, by omega⟩
    have hrest : rest.length < fuel := by simpa using hfuel
    have hread : s.read x = .ok ⟨a, b⟩ := h.read_eq hk (by rw [hq]; simp)
    rw [first_cons, FutexSystem.wakeLoop, if_neg (h.ne_zero hk hq), hread, Exec.ok_bind, h.next_eq hk hq,
      Exec.ok_bind]
    by_cases hwake : b = false ∧ cnt < value
    · obtain ⟨rfl, hlt⟩ := hwake
      obtain ⟨s', hs', h'⟩ := ih (h.wakeOne hk hq) (l := l ++ [(x, true)]) (by simp) hrest (cnt + 1)
      obtain ⟨n, hn⟩ : ∃ n, value - cnt = n + 1 := ⟨value - cnt - 1, by omega⟩
      have hn' : value - (cnt + 1) = n := by omega
      rw [hn'] at hs' h'
      refine ⟨s', ?_, ?_⟩
      · rw [if_pos ⟨rfl, hlt⟩, hs', hn, asleepCount_false]
        congr 2
        omega
      · rw [hn, wakeFirst]
        simpa using h'
    · obtain ⟨s', hs', h'⟩ := ih h (l := l ++ [(x, b)]) (by simp [hq]) hrest cnt
      refine ⟨s', ?_, ?_⟩
      · rw [if_neg hwake, hs']
        cases b with
        | false =>
          have hzero : value - cnt = 0 := Nat.sub_eq_zero_of_le (not_lt.mp fun hlt => hwake ⟨rfl, hlt⟩)
          rw [hzero, Nat.zero_min, Nat.zero_min]
        | true => rw [asleepCount_true]
      · cases b with
        | false =>
          have hzero : value - cnt = 0 := Nat.sub_eq_zero_of_le (not_lt.mp fun hlt => hwake ⟨rfl, hlt⟩)
          rw [hzero, wakeFirst_zero] at h' ⊢
          simpa using h'
        | true =>
          rw [wakeFirst]
          simpa using h'

/-- One round. -/
theorem Keeps.requeueLoop_cons (h : s.Keeps m q) (hk : m k = some a) (hq : q.queue k = l ++ (x, b) :: l')
    (a2 value val2 fuel aw mv : ℕ) :
    requeueLoop a a2 value val2 (fuel + 1) s x aw mv =
      if b = false ∧ aw < value then
        requeueLoop a a2 value val2 fuel (s.write x ⟨a, true⟩) (first l') (aw + 1) mv
      else if b = false ∧ mv < val2 then do
        let s ← s.requeueMove a a2 x
        requeueLoop a a2 value val2 fuel s (first l') aw (mv + 1)
      else requeueLoop a a2 value val2 fuel s (first l') aw mv := by
  have hread : s.read x = .ok ⟨a, b⟩ := h.read_eq hk (by rw [hq]; simp)
  rw [requeueLoop, if_neg (h.ne_zero hk hq), hread, Exec.ok_bind, h.next_eq hk hq, Exec.ok_bind]

theorem requeueLoop_nil (a2 value val2 fuel aw mv : ℕ) :
    requeueLoop a a2 value val2 (fuel + 1) s 0 aw mv = .ok (s, aw + mv) := by
  rw [requeueLoop, if_pos rfl]

/-- Onto another queue: induction on the waiters that are still to come. -/
theorem Keeps.requeueLoop (h : s.Keeps m q) (hk : m k = some a) {k2 a2 : ℕ} (hk2 : m k2 = some a2) (hne : k2 ≠ k)
    {rest : FutexQueue} (hq : q.queue k = l ++ rest) {fuel : ℕ} (hfuel : rest.length < fuel) (value val2 aw mv : ℕ) :
    ∃ s', requeueLoop a a2 value val2 fuel s (first rest) aw mv = .ok (s', aw + min (value - aw) (asleepCount rest) +
        (mv + min (val2 - mv) (asleepCount (wakeFirst (value - aw) rest)))) ∧
      s'.Keeps m ((q.setQueue k (l ++ dropAsleep (val2 - mv) (wakeFirst (value - aw) rest))).push k2
        (takeAsleep (val2 - mv) (wakeFirst (value - aw) rest))) := by
  induction rest generalizing s q l fuel aw mv with
  | nil =>
    obtain ⟨fuel, rfl⟩ : ∃ n, fuel = n + 1 := ⟨fuel - 1, by omega⟩
    refine ⟨s, by rw [first_nil, requeueLoop_nil]; simp [wakeFirst], ?_⟩
    rw [wakeFirst, takeAsleep, dropAsleep, FutexQueues.push_nil, ← hq, FutexQueues.setQueue_queue]
    exact h
  | cons w rest ih =>
    obtain ⟨x, b⟩ := w
    obtain ⟨fuel, rfl⟩ : ∃ n, fuel = n + 1 := ⟨fuel - 1, by omega⟩
    have hrest : rest.length < fuel := by simpa using hfuel
    rw [first_cons, h.requeueLoop_cons hk hq]
    by_cases hwake : b = false ∧ aw < value
    · obtain ⟨rfl, hlt⟩ := hwake
      obtain ⟨s', hs', h'⟩ := ih (h.wakeOne hk hq) (l := l ++ [(x, true)]) (by simp) hrest (aw + 1) mv
      obtain ⟨n, hn⟩ : ∃ n, value - aw = n + 1 := ⟨value - aw - 1, by omega⟩
      have hn' : value - (aw + 1) = n := by omega
      rw [hn'] at hs' h'
      refine ⟨s', ?_, ?_⟩
      · rw [if_pos ⟨rfl, hlt⟩, hs', hn, asleepCount_false, wakeFirst, asleepCount_true]
        congr 2
        omega
      · rw [hn, wakeFirst, dropAsleep, takeAsleep]
        simpa using h'
    · rw [if_neg hwake]
      cases b with
      | true =>
        obtain ⟨s', hs', h'⟩ := ih h (l := l ++ [(x, true)]) (by simp [hq]) hrest aw mv
        refine ⟨s', ?_, ?_⟩
        · rw [if_neg (by simp), hs', wakeFirst, asleepCount_true, asleepCount_true]
        · rw [wakeFirst, dropAsleep, takeAsleep]
          simpa using h'
      | false =>
        have hzero : value - aw = 0 := Nat.sub_eq_zero_of_le (not_lt.mp fun hlt => hwake ⟨rfl, hlt⟩)
        by_cases hmove : mv < val2
        · obtain ⟨s₁, hs₁, h₁, -⟩ := h.requeueMove hk hk2 hq
          have hq₁ : ((q.setQueue k (l ++ rest)).push k2 [(x, false)]).queue k = l ++ rest := by
            rw [FutexQueues.push, FutexQueues.queue_setQueue_of_ne hne.symm, FutexQueues.queue_setQueue]
          obtain ⟨s', hs', h'⟩ := ih h₁ hq₁ hrest aw (mv + 1)
          obtain ⟨n, hn⟩ : ∃ n, val2 - mv = n + 1 := ⟨val2 - mv - 1, by omega⟩
          have hn' : val2 - (mv + 1) = n := by omega
          rw [hn', hzero, wakeFirst_zero] at hs' h'
          refine ⟨s', ?_, ?_⟩
          · rw [if_pos ⟨rfl, hmove⟩, hs₁, Exec.ok_bind, hs', hzero, hn, wakeFirst_zero, asleepCount_false]
            congr 2
            omega
          · rw [hzero, hn, wakeFirst_zero, dropAsleep, takeAsleep]
            rw [FutexQueues.setQueue_push_of_ne hne, FutexQueues.push_push] at h'
            exact h'
        · have hstop : val2 - mv = 0 := by omega
          obtain ⟨s', hs', h'⟩ := ih h (l := l ++ [(x, false)]) (by simp [hq]) hrest aw mv
          rw [hzero, hstop, wakeFirst_zero, dropAsleep_zero, takeAsleep_zero] at h'
          refine ⟨s', ?_, ?_⟩
          · rw [if_neg (fun hand => hmove hand.2), hs', hzero, hstop]
            simp
          · rw [hzero, hstop, wakeFirst_zero, dropAsleep_zero, takeAsleep_zero]
            simpa using h'

/-- With nobody left to wake and nobody to move the loop goes to the end of the list. -/
theorem Keeps.requeueLoop_done (h : s.Keeps m q) (hk : m k = some a) {rest : FutexQueue} (hq : q.queue k = l ++ rest)
    {fuel : ℕ} (hfuel : rest.length < fuel) {value val2 aw mv : ℕ} (haw : value ≤ aw) (hmv : val2 ≤ mv) (a2 : ℕ) :
    FutexSystem.requeueLoop a a2 value val2 fuel s (first rest) aw mv = .ok (s, aw + mv) := by
  induction rest generalizing l fuel with
  | nil =>
    obtain ⟨fuel, rfl⟩ : ∃ n, fuel = n + 1 := ⟨fuel - 1, by omega⟩
    rw [first_nil, requeueLoop_nil]
  | cons w rest ih =>
    obtain ⟨x, b⟩ := w
    obtain ⟨fuel, rfl⟩ : ∃ n, fuel = n + 1 := ⟨fuel - 1, by omega⟩
    rw [first_cons, h.requeueLoop_cons hk hq, if_neg (fun hand => absurd hand.2 (by omega)),
      if_neg (fun hand => absurd hand.2 (by omega))]
    exact ih (l := l ++ [(x, b)]) (by simp [hq]) (by simpa using hfuel)

/-- The waiters of `rest` are still to come and those of `moved` have been moved behind
them: no moved waiter will be moved again. -/
def Settles (rest moved : FutexQueue) (value val2 aw mv : ℕ) : Prop :=
  (val2 - mv ≤ asleepCount (wakeFirst (value - aw) rest) ∧ (moved ≠ [] → value ≤ aw)) ∨
    (moved = [] ∧ ∀ w ∈ (wakeFirst (value - aw) rest).dropLast, w.2 = true)

/-- Onto the same queue. -/
theorem Keeps.requeueLoop_self (h : s.Keeps m q) (hk : m k = some a) {rest moved : FutexQueue}
    (hq : q.queue k = l ++ (rest ++ moved)) {value val2 aw mv : ℕ} (hsettles : Settles rest moved value val2 aw mv)
    {fuel : ℕ} (hfuel : rest.length + moved.length + (val2 - mv) < fuel) :
    ∃ s', FutexSystem.requeueLoop a a value val2 fuel s (first (rest ++ moved)) aw mv =
        .ok (s', aw + min (value - aw) (asleepCount rest) +
          (mv + min (val2 - mv) (asleepCount (wakeFirst (value - aw) rest)))) ∧
      s'.Keeps m (q.setQueue k (l ++ (dropAsleep (val2 - mv) (wakeFirst (value - aw) rest) ++
        (moved ++ takeAsleep (val2 - mv) (wakeFirst (value - aw) rest))))) := by
  induction rest generalizing s q l fuel aw mv moved with
  | nil =>
    have hloop : FutexSystem.requeueLoop a a value val2 fuel s (first ([] ++ moved)) aw mv = .ok (s, aw + mv) := by
      rcases hsettles with ⟨hmv, haw⟩ | ⟨rfl, -⟩
      · by_cases hmoved : moved = []
        · obtain ⟨fuel, rfl⟩ : ∃ n, fuel = n + 1 := ⟨fuel - 1, by omega⟩
          rw [hmoved, List.append_nil, first_nil, requeueLoop_nil]
        · have hmv : val2 - mv ≤ 0 := hmv
          have hlength : moved.length < fuel := by
            rw [List.length_nil] at hfuel
            omega
          exact h.requeueLoop_done hk hq hlength (haw hmoved) (by omega) a
      · obtain ⟨fuel, rfl⟩ : ∃ n, fuel = n + 1 := ⟨fuel - 1, by omega⟩
        rw [List.append_nil, first_nil, requeueLoop_nil]
    refine ⟨s, by rw [hloop]; simp [wakeFirst], ?_⟩
    rw [wakeFirst, takeAsleep, dropAsleep, List.append_nil, ← hq, FutexQueues.setQueue_queue]
    exact h
  | cons w rest ih =>
    obtain ⟨x, b⟩ := w
    obtain ⟨fuel, rfl⟩ : ∃ n, fuel = n + 1 := ⟨fuel - 1, by omega⟩
    rw [List.length_cons] at hfuel
    rw [List.cons_append] at hq ⊢
    rw [first_cons, h.requeueLoop_cons hk hq]
    by_cases hwake : b = false ∧ aw < value
    · obtain ⟨rfl, hlt⟩ := hwake
      obtain ⟨n, hn⟩ : ∃ n, value - aw = n + 1 := ⟨value - aw - 1, by omega⟩
      have hn' : value - (aw + 1) = n := by omega
      have hsettles' : Settles rest moved value val2 (aw + 1) mv := by
        rw [Settles, hn, wakeFirst, asleepCount_true] at hsettles
        rw [Settles, hn']
        rcases hsettles with ⟨hcount, hmoved⟩ | ⟨hmoved, hlast⟩
        · exact .inl ⟨hcount, fun hne => (hmoved hne).trans (Nat.le_succ _)⟩
        · exact .inr ⟨hmoved, fun w hw => hlast w (mem_dropLast_cons hw)⟩
      have hq' : (q.setQueue k (l ++ (x, true) :: (rest ++ moved))).queue k = (l ++ [(x, true)]) ++ (rest ++ moved) := by
        simp
      have hlength : rest.length + moved.length + (val2 - mv) < fuel := by omega
      obtain ⟨s', hs', h'⟩ := ih (h.wakeOne hk hq) hq' hsettles' hlength
      rw [hn'] at hs' h'
      refine ⟨s', ?_, ?_⟩
      · rw [if_pos ⟨rfl, hlt⟩, hs', hn, asleepCount_false, wakeFirst, asleepCount_true]
        congr 2
        omega
      · rw [hn, wakeFirst, dropAsleep, takeAsleep]
        simpa using h'
    · rw [if_neg hwake]
      cases b with
      | true =>
        have hsettles' : Settles rest moved value val2 aw mv := by
          rw [Settles, wakeFirst, asleepCount_true] at hsettles
          rcases hsettles with hcount | ⟨hmoved, hlast⟩
          · exact .inl hcount
          · exact .inr ⟨hmoved, fun w hw => hlast w (mem_dropLast_cons hw)⟩
        have hq' : q.queue k = (l ++ [(x, true)]) ++ (rest ++ moved) := by simp [hq]
        have hlength : rest.length + moved.length + (val2 - mv) < fuel := by omega
        obtain ⟨s', hs', h'⟩ := ih h hq' hsettles' hlength
        refine ⟨s', ?_, ?_⟩
        · rw [if_neg (by simp), hs', wakeFirst, asleepCount_true, asleepCount_true]
        · rw [wakeFirst, dropAsleep, takeAsleep]
          simpa using h'
      | false =>
        have hle : value ≤ aw := not_lt.mp fun hlt => hwake ⟨rfl, hlt⟩
        have hzero : value - aw = 0 := Nat.sub_eq_zero_of_le hle
        rw [Settles, hzero, wakeFirst_zero, asleepCount_false] at hsettles
        by_cases hmove : mv < val2
        · obtain ⟨n, hn⟩ : ∃ n, val2 - mv = n + 1 := ⟨val2 - mv - 1, by omega⟩
          have hn' : val2 - (mv + 1) = n := by omega
          obtain ⟨s₁, hs₁, h₁, -⟩ := h.requeueMove hk hk hq
          rw [FutexQueues.push, FutexQueues.queue_setQueue, FutexQueues.setQueue_setQueue, List.append_assoc,
            List.append_assoc] at h₁
          rw [if_pos ⟨rfl, hmove⟩, hs₁, Exec.ok_bind, hzero, hn, wakeFirst_zero, dropAsleep, takeAsleep, Nat.zero_min,
            asleepCount_false, Nat.add_min_add_right]
          by_cases hempty : rest ++ moved = []
          · -- the only waiter is the last one, and nothing comes behind it
            obtain ⟨rfl, rfl⟩ := List.append_eq_nil_iff.mp hempty
            obtain ⟨fuel, rfl⟩ : ∃ n, fuel = n + 1 := ⟨fuel - 1, by omega⟩
            refine ⟨s₁, ?_, by simpa [dropAsleep, takeAsleep] using h₁⟩
            rw [List.append_nil, first_nil, requeueLoop_nil]
            simp
          · have hsettles' : Settles rest (moved ++ [(x, false)]) value val2 aw (mv + 1) := by
              refine .inl ⟨?_, fun _ => hle⟩
              rw [hzero, wakeFirst_zero]
              rcases hsettles with ⟨hcount, -⟩ | ⟨rfl, hlast⟩
              · omega
              · cases rest with
                | nil => exact absurd rfl hempty
                | cons v rest => exact absurd (hlast (x, false) List.mem_cons_self) (by simp)
            have hlength : rest.length + (moved ++ [(x, false)]).length + (val2 - (mv + 1)) < fuel := by
              rw [List.length_append, List.length_singleton]
              omega
            obtain ⟨s', hs', h'⟩ := ih h₁ FutexQueues.queue_setQueue hsettles' hlength
            rw [← List.append_assoc, first_append hempty, hzero, hn', wakeFirst_zero, Nat.zero_min] at hs'
            rw [hzero, hn', wakeFirst_zero, FutexQueues.setQueue_setQueue, List.append_assoc] at h'
            refine ⟨s', ?_, h'⟩
            rw [hs']
            congr 2
            omega
        · have hstop : val2 - mv = 0 := by omega
          have hsettles' : Settles rest moved value val2 aw mv := .inl ⟨by omega, fun _ => hle⟩
          have hq' : q.queue k = (l ++ [(x, false)]) ++ (rest ++ moved) := by simp [hq]
          have hlength : rest.length + moved.length + (val2 - mv) < fuel := by omega
          obtain ⟨s', hs', h'⟩ := ih h hq' hsettles' hlength
          rw [hzero, hstop, wakeFirst_zero, dropAsleep_zero, takeAsleep_zero] at h'
          refine ⟨s', ?_, ?_⟩
          · rw [if_neg (fun hand => hmove hand.2), hs', hzero, hstop]
            simp
          · rw [hzero, hstop, wakeFirst_zero, dropAsleep_zero, takeAsleep_zero]
            simpa using h'

theorem Keeps.waiters_eq (h : s.Keeps m q) (hk : m k = some a) {rest : FutexQueue} (hq : q.queue k = l ++ rest)
    {fuel : ℕ} (hfuel : rest.length < fuel) : s.waiters fuel (first rest) = rest := by
  induction rest generalizing l fuel with
  | nil =>
    obtain ⟨fuel, rfl⟩ : ∃ n, fuel = n + 1 := ⟨fuel - 1, by omega⟩
    rw [first_nil, waiters, h.null]
  | cons w rest ih =>
    obtain ⟨x, b⟩ := w
    obtain ⟨fuel, rfl⟩ : ∃ n, fuel = n + 1 := ⟨fuel - 1, by omega⟩
    have hnext := h.next_eq hk hq
    have hasleep := h.waiter k a hk (x, b) (by rw [hq]; simp)
    rw [Links.next] at hnext
    rw [first_cons, waiters, hasleep]
    dsimp only
    cases hlink : s.links x with
    | none =>
      rw [hlink] at hnext
      cases hnext
    | some n =>
      rw [hlink] at hnext
      cases hnext
      exact congrArg ((x, b) :: ·) (ih (l := l ++ [(x, b)]) (by simp [hq]) (by simpa using hfuel))

theorem Keeps.queueOf_eq (h : s.Keeps m q) (k : ℕ) : s.queueOf k = q.queue k := by
  rw [queueOf, h.tree.avlLookup k]
  cases hk : m k with
  | none =>
    have hempty := h.empty k hk
    rw [FutexQueues.addresses, List.map_eq_nil_iff] at hempty
    rw [Option.getD_none, if_pos rfl, hempty]
  | some a =>
    obtain ⟨hzero, ll, hfutex, hholds⟩ := h.futex k a hk
    have hfirst : ll.firstObject = first (q.queue k) := hholds.path.eq_headD
    rw [Option.getD_some, if_neg hzero, hfutex]
    dsimp only
    rw [hfirst]
    exact h.waiters_eq hk (l := []) rfl (Nat.lt_succ_of_le (h.length_le k))

end

/-! ### Runs -/

section
variable (virtualToPhysical : ℕ → ℕ)

/-- What the callers and the allocators promise: the addresses are mapped, what is
allocated is not in use, and only a waiter leaves. -/
def Legal (s : FutexSystem) : FutexEvent → Prop
  | .wait addr _ _ newFutex newAsleep => virtualToPhysical addr ≠ 0 ∧ newFutex ≠ 0 ∧ s.futexes newFutex = none ∧
    newAsleep ≠ 0 ∧ s.asleep newAsleep = none
  | .exit asleep _ => s.asleep asleep ≠ none
  | .wake addr _ newFutex => virtualToPhysical addr ≠ 0 ∧ newFutex ≠ 0 ∧ s.futexes newFutex = none
  | .requeue addr addr2 _ _ newFutex newFutex2 => virtualToPhysical addr ≠ 0 ∧ virtualToPhysical addr2 ≠ 0 ∧
    newFutex ≠ 0 ∧ s.futexes newFutex = none ∧ newFutex2 ≠ 0 ∧ s.futexes newFutex2 = none ∧ newFutex2 ≠ newFutex

/-- The condition on a requeue onto the queue itself: as many waiters are asleep as it is
to move, or none that has another behind it. -/
def MovesOnce (s : FutexSystem) : FutexEvent → Prop
  | .requeue addr addr2 value val2 _ _ =>
    virtualToPhysical addr2 ≠ virtualToPhysical addr ∨
      val2 ≤ asleepCount (wakeFirst value (s.queueOf (virtualToPhysical addr))) ∨
      ∀ w ∈ (wakeFirst value (s.queueOf (virtualToPhysical addr))).dropLast, w.2 = true
  | .wait _ _ _ _ _ | .exit _ _ | .wake _ _ _ => True

theorem key_refused {addr : ℕ} (h : addr = 0 ∨ addr % 4 ≠ 0) : key virtualToPhysical addr = .ok none := by
  rw [key, if_pos h]

theorem key_mapped {addr : ℕ} (h : ¬(addr = 0 ∨ addr % 4 ≠ 0)) (hmapped : virtualToPhysical addr ≠ 0) :
    key virtualToPhysical addr = .ok (some (virtualToPhysical addr)) := by
  rw [key, if_neg h, if_neg hmapped]

variable {s : FutexSystem} {m : AvlHeader.Entries} {q : FutexQueues}

theorem Keeps.ret (h : s.Keeps m q) (n : ℕ) :
    ({ s with returned := n :: s.returned } : FutexSystem).Keeps m (q.ret n) where
  toLists := ⟨h.tree, h.treeLock, h.null, h.futex, h.empty, h.injective, h.nodup, h.apart⟩
  returned := congrArg (n :: ·) h.returned
  waiter := h.waiter
  listed := h.listed
  bounded := h.bounded

theorem Keeps.wake (h : s.Keeps m q) (phys value : ℕ) {newFutex : ℕ} (hzero : newFutex ≠ 0)
    (hnew : s.futexes newFutex = none) :
    ∃ s' m', s.wake phys value newFutex = .ok s' ∧
      s'.Keeps m' ((q.setQueue phys (wakeFirst value (q.queue phys))).ret (min value (asleepCount (q.queue phys)))) := by
  obtain ⟨s, m, a, hfind, h, hphys, -⟩ := h.futexFind phys hzero hnew
  obtain ⟨ll, hfutex, hfirst⟩ := h.first_eq hphys
  obtain ⟨s', hloop, h'⟩ := h.wakeLoop hphys (l := []) rfl (Nat.lt_succ_of_le (h.length_le phys)) value 0
  rw [Nat.sub_zero, Nat.zero_add] at hloop
  refine ⟨{ s' with returned := min value (asleepCount (q.queue phys)) :: s'.returned }, m, ?_, h'.ret _⟩
  rw [FutexSystem.wake, hfind, Exec.ok_bind]
  dsimp only
  rw [hfutex, Exec.ok_bind, hfirst, fuel, hloop, Exec.ok_bind]
  dsimp only
  rw [h'.toLists.releaseProp hphys, Exec.ok_bind]

theorem Keeps.requeue (h : s.Keeps m q) {phys phys2 value val2 newFutex newFutex2 : ℕ} (hzero : newFutex ≠ 0)
    (hnew : s.futexes newFutex = none) (hzero2 : newFutex2 ≠ 0) (hnew2 : s.futexes newFutex2 = none)
    (hne : newFutex2 ≠ newFutex)
    (honce : phys2 ≠ phys ∨ val2 ≤ asleepCount (wakeFirst value (q.queue phys)) ∨
      ∀ w ∈ (wakeFirst value (q.queue phys)).dropLast, w.2 = true) :
    ∃ s' m', s.requeue phys phys2 value val2 newFutex newFutex2 = .ok s' ∧
      s'.Keeps m' (((q.setQueue phys (dropAsleep val2 (wakeFirst value (q.queue phys)))).push phys2
        (takeAsleep val2 (wakeFirst value (q.queue phys)))).ret
        (min value (asleepCount (q.queue phys)) + min val2 (asleepCount (wakeFirst value (q.queue phys))))) := by
  obtain ⟨s₁, m₁, a, hfind, h₁, hphys, -, -, hfree⟩ := h.futexFind phys hzero hnew
  obtain ⟨s₂, m, a2, hfind2, h₂, hphys2, hmono, -⟩ := h₁.futexFind phys2 hzero2 (hfree newFutex2 hne hnew2)
  have hphys := hmono phys a hphys
  obtain ⟨ll, hfutex, hfirst⟩ := h₂.first_eq hphys
  have hlength := h₂.length_le phys
  have hloop : ∃ s', FutexSystem.requeueLoop a a2 value val2 (s₂.fuel + val2) s₂ (first (q.queue phys)) 0 0 =
      .ok (s', min value (asleepCount (q.queue phys)) + min val2 (asleepCount (wakeFirst value (q.queue phys)))) ∧
      s'.Keeps m ((q.setQueue phys (dropAsleep val2 (wakeFirst value (q.queue phys)))).push phys2
        (takeAsleep val2 (wakeFirst value (q.queue phys)))) := by
    by_cases hsame : phys2 = phys
    · subst hsame
      cases hphys.symm.trans hphys2
      have hsettles : Settles (q.queue phys2) [] value val2 0 0 := by
        rcases honce with hne | hcount | hlast
        · exact absurd rfl hne
        · exact .inl ⟨hcount, fun h => absurd rfl h⟩
        · exact .inr ⟨rfl, hlast⟩
      have hself : q.queue phys2 = [] ++ (q.queue phys2 ++ []) := by simp
      have hfuel : (q.queue phys2).length + ([] : FutexQueue).length + (val2 - 0) < s₂.fuel + val2 := by
        rw [fuel, List.length_nil]
        omega
      obtain ⟨s', hs', h'⟩ := h₂.requeueLoop_self hphys hself hsettles hfuel
      refine ⟨s', by simpa using hs', ?_⟩
      rw [FutexQueues.push, FutexQueues.queue_setQueue, FutexQueues.setQueue_setQueue]
      simpa using h'
    · have hfuel : (q.queue phys).length < s₂.fuel + val2 := by
        rw [fuel]
        omega
      obtain ⟨s', hs', h'⟩ := h₂.requeueLoop hphys hphys2 hsame (l := []) rfl hfuel value val2 0 0
      exact ⟨s', by simpa using hs', by simpa using h'⟩
  obtain ⟨s', hs', h'⟩ := hloop
  refine ⟨_, m, ?_, h'.ret _⟩
  rw [FutexSystem.requeue, hfind, Exec.ok_bind]
  dsimp only
  rw [hfind2, Exec.ok_bind]
  dsimp only
  rw [hfutex, Exec.ok_bind, hfirst, hs', Exec.ok_bind]
  dsimp only
  rw [h'.toLists.releaseProp hphys2, Exec.ok_bind, h'.toLists.releaseProp hphys, Exec.ok_bind]

theorem Keeps.step (h : s.Keeps m q) {event : FutexEvent} (hlegal : s.Legal virtualToPhysical event)
    (honce : s.MovesOnce virtualToPhysical event) :
    ∃ s', s.step virtualToPhysical event = .ok s' ∧ ∃ m', s'.Keeps m' (q.step virtualToPhysical event) := by
  cases event with
  | wait addr word value newFutex newAsleep =>
    obtain ⟨hmapped, hzero, hnew, hzero', hnew'⟩ := hlegal
    rw [FutexSystem.step, FutexQueues.step]
    by_cases hrefused : addr = 0 ∨ addr % 4 ≠ 0
    · rw [key_refused virtualToPhysical hrefused, if_pos hrefused]
      exact ⟨_, rfl, m, h.ret _⟩
    · rw [key_mapped virtualToPhysical hrefused hmapped, if_neg hrefused, Exec.ok_bind]
      dsimp only
      by_cases hword : word ≠ value
      · rw [if_pos hword, if_pos hword]
        exact ⟨_, rfl, m, h.ret _⟩
      · rw [if_neg hword, if_neg hword]
        obtain ⟨s', m', hs', h'⟩ := h.wait (virtualToPhysical addr) hzero hnew hzero' hnew'
        exact ⟨s', hs', m', h'⟩
  | exit asleep signalPending =>
    obtain ⟨w, hw⟩ := Option.ne_none_iff_exists'.mp hlegal
    obtain ⟨s', hs', h'⟩ := h.exit virtualToPhysical hw signalPending
    exact ⟨s', hs', m, h'⟩
  | wake addr value newFutex =>
    obtain ⟨hmapped, hzero, hnew⟩ := hlegal
    rw [FutexSystem.step, FutexQueues.step]
    by_cases hrefused : addr = 0 ∨ addr % 4 ≠ 0
    · rw [key_refused virtualToPhysical hrefused, if_pos hrefused]
      exact ⟨_, rfl, m, h.ret _⟩
    · rw [key_mapped virtualToPhysical hrefused hmapped, Exec.ok_bind]
      dsimp only
      rw [if_neg hrefused]
      obtain ⟨s', m', hs', h'⟩ := h.wake (virtualToPhysical addr) value hzero hnew
      exact ⟨s', hs', m', h'⟩
  | requeue addr addr2 value val2 newFutex newFutex2 =>
    obtain ⟨hmapped, hmapped2, hzero, hnew, hzero2, hnew2, hne⟩ := hlegal
    rw [MovesOnce, h.queueOf_eq] at honce
    rw [FutexSystem.step, FutexQueues.step]
    by_cases hrefused : addr = 0 ∨ addr % 4 ≠ 0
    · rw [key_refused virtualToPhysical hrefused, if_pos hrefused]
      exact ⟨_, rfl, m, h.ret _⟩
    · rw [key_mapped virtualToPhysical hrefused hmapped, Exec.ok_bind]
      dsimp only
      rw [if_neg hrefused]
      by_cases hrefused2 : addr2 = 0 ∨ addr2 % 4 ≠ 0
      · rw [key_refused virtualToPhysical hrefused2, if_pos hrefused2]
        exact ⟨_, rfl, m, h.ret _⟩
      · rw [key_mapped virtualToPhysical hrefused2 hmapped2, if_neg hrefused2, Exec.ok_bind]
        obtain ⟨s', m', hs', h'⟩ := h.requeue hzero hnew hzero2 hnew2 hne honce
        exact ⟨s', hs', m', h'⟩

/-- In every run in which no requeue meets its own moved waiters again, the lists of the
kernel are the queues, every waiter is in exactly one of them, the one of the futex it
names, and no assertion fails and nothing waits forever. -/
theorem futex_runs_refine (events : List FutexEvent)
    (hguard : Guarded (step virtualToPhysical)
      (fun s event => s.Legal virtualToPhysical event ∧ s.MovesOnce virtualToPhysical event) start events) :
    ∃ s m, run (step virtualToPhysical) start events = .ok s ∧
      s.Keeps m (events.foldl (FutexQueues.step virtualToPhysical) .start) ∧
      ∀ x w, s.asleep x = some w → ∃ k, m k = some w.above ∧
        ∀ k', x ∈ (events.foldl (FutexQueues.step virtualToPhysical) .start).addresses k' ↔ k' = k := by
  have hsim : ∀ (s : FutexSystem) (q : FutexQueues) (event : FutexEvent), (∃ m, s.Keeps m q) →
      s.Legal virtualToPhysical event ∧ s.MovesOnce virtualToPhysical event →
      ∃ s', s.step virtualToPhysical event = .ok s' ∧ ∃ m, s'.Keeps m (q.step virtualToPhysical event) := by
    rintro s q event ⟨m, h⟩ ⟨hlegal, honce⟩
    exact h.step virtualToPhysical hlegal honce
  obtain ⟨s, hs, m, h⟩ := run_simulates hsim ⟨_, keeps_start⟩ hguard
  refine ⟨s, m, hs, h, fun x w hx => ?_⟩
  obtain ⟨k, hk⟩ := h.listed x w hx
  obtain ⟨a, ha⟩ := h.exists_futex hk
  obtain ⟨w', hw', rfl⟩ := List.mem_map.mp hk
  cases hx.symm.trans (h.waiter k a ha w' hw')
  refine ⟨k, ha, fun k' => ⟨fun hk' => h.apart k' k w'.1 hk' hk, ?_⟩⟩
  rintro rfl
  exact hk

instance Legal.decidable (s : FutexSystem) : (event : FutexEvent) → Decidable (s.Legal virtualToPhysical event)
  | .wait addr _ _ newFutex newAsleep => inferInstanceAs (Decidable (virtualToPhysical addr ≠ 0 ∧ newFutex ≠ 0 ∧
      s.futexes newFutex = none ∧ newAsleep ≠ 0 ∧ s.asleep newAsleep = none))
  | .exit asleep _ => inferInstanceAs (Decidable (s.asleep asleep ≠ none))
  | .wake addr _ newFutex => inferInstanceAs (Decidable (virtualToPhysical addr ≠ 0 ∧ newFutex ≠ 0 ∧
      s.futexes newFutex = none))
  | .requeue addr addr2 _ _ newFutex newFutex2 => inferInstanceAs (Decidable (virtualToPhysical addr ≠ 0 ∧
      virtualToPhysical addr2 ≠ 0 ∧ newFutex ≠ 0 ∧ s.futexes newFutex = none ∧ newFutex2 ≠ 0 ∧
      s.futexes newFutex2 = none ∧ newFutex2 ≠ newFutex))

instance MovesOnce.decidable (s : FutexSystem) : (event : FutexEvent) → Decidable (s.MovesOnce virtualToPhysical event)
  | .requeue addr addr2 value val2 _ _ => inferInstanceAs (Decidable (virtualToPhysical addr2 ≠ virtualToPhysical addr ∨
      val2 ≤ asleepCount (wakeFirst value (s.queueOf (virtualToPhysical addr))) ∨
      ∀ w ∈ (wakeFirst value (s.queueOf (virtualToPhysical addr))).dropLast, w.2 = true))
  | .wait _ _ _ _ _ | .exit _ _ | .wake _ _ _ => isTrue trivial

end

/-- Three waiters: one is woken and two moved, which then leave; a fourth is requeued
onto its own queue. -/
def sampleFutexCalls : List FutexEvent :=
  [.wait 4 0 0 100 1000, .wait 4 0 0 200 2000, .wait 4 0 0 300 3000, .requeue 4 8 1 2 400 500, .exit 1000 false,
    .exit 3000 true, .wait 8 0 0 600 4000, .requeue 8 8 0 1 700 800, .wake 8 5 900, .exit 4000 false]

theorem sampleFutexCalls_refine :
    ∃ s m, run (step id) start sampleFutexCalls = .ok s ∧
      s.Keeps m (sampleFutexCalls.foldl (FutexQueues.step id) .start) ∧
      ∀ x w, s.asleep x = some w → ∃ k, m k = some w.above ∧
        ∀ k', x ∈ (sampleFutexCalls.foldl (FutexQueues.step id) .start).addresses k' ↔ k' = k :=
  futex_runs_refine id sampleFutexCalls (by decide +kernel)

/-- Two waiters, of which three are to be moved to the end of their own queue. -/
def requeueOntoItself : List FutexEvent := [.wait 4 0 0 100 1000, .wait 4 0 0 200 2000, .requeue 4 4 0 3 300 400]

/-- The first waiter is moved twice and ends up behind the second. -/
theorem requeue_out_of_order :
    Guarded (step id) (fun s event => s.Legal id event) start requeueOntoItself ∧
      ∃ s, run (step id) start requeueOntoItself = .ok s ∧ s.returned = [3] ∧ s.queueOf 4 = [(2000, false), (1000, false)] ∧
        (requeueOntoItself.foldl (FutexQueues.step id) .start).queue 4 = [(1000, false), (2000, false)] := by
  refine ⟨by decide +kernel, ?_⟩
  have hspec : (requeueOntoItself.foldl (FutexQueues.step id) .start).queue 4 = [(1000, false), (2000, false)] := by
    simp [requeueOntoItself, FutexQueues.step, FutexQueues.push, FutexQueues.setQueue, FutexQueues.ret,
      FutexQueues.start, takeAsleep, dropAsleep]
  rw [hspec]
  decide +kernel

end FutexSystem

end DualFuse.Syscalls
