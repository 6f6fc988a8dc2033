import DualFuse.Multitasking.Spinlock
import DualFuse.Utility.AvlTree
import DualFuse.Utility.LinkedList
import DualFuse.Utility.Words

/-! The futex system call (`syscalls/futex.cpp`). The futexes are found by physical
address in an AVL tree; each has a linked list of the tasks asleep on it, whose objects
name the futex they are on in `above`. Left out are the fields of the tasks themselves:
when the exit of a waiter comes is an input, and so is what `calloc` and `malloc`
return. A wait for a lock that nobody releases counts as a halt. -/

namespace DualFuse.Syscalls

open Library Utility Multitasking

structure FutexAsleep where
  above : ℕ
  awoken : Bool
  deriving DecidableEq, Repr

/-- `sizeof(FutexAsleep)`. -/
def futexAsleepSize : ℕ := 32

structure Futex where
  lockProp : Spinlock
  firstAsleep : LLcontrol
  deriving DecidableEq, Repr

/-- The kernel's futexes and waiters. No list is longer than the number of waiters ever
allocated. -/
structure FutexSystem where
  firstFutex : AvlHeader
  lockAvlFutex : Spinlock
  futexes : ℕ → Option Futex
  links : Links
  asleep : ℕ → Option FutexAsleep
  allocated : ℕ
  returned : List ℕ

/-- `ERR(errno)`. -/
def err (errno : ℕ) : ℕ := 2 ^ 64 - errno

def eintr : ℕ := 4

def eagain : ℕ := 11

def einval : ℕ := 22

def etimedout : ℕ := 110

def acquireAlone (lock : Spinlock) : Exec Spinlock :=
  match lock.spinlockAcquire with
  | none => .error .halt
  | some lock => .ok lock

namespace FutexSystem

def start : FutexSystem := ⟨.nil, ⟨false⟩, fun _ => none, fun _ => none, fun _ => none, 0, []⟩

/-- More rounds than a walk over a list can have. -/
def fuel (s : FutexSystem) : ℕ := s.allocated + 1

def futex (s : FutexSystem) (a : ℕ) : Exec Futex :=
  match s.futexes a with
  | none => .error .fault
  | some futex => .ok futex

def setFutex (s : FutexSystem) (a : ℕ) (futex : Futex) : FutexSystem :=
  { s with futexes := Function.update s.futexes a (some futex) }

def read (s : FutexSystem) (a : ℕ) : Exec FutexAsleep :=
  match s.asleep a with
  | none => .error .fault
  | some w => .ok w

def write (s : FutexSystem) (a : ℕ) (w : FutexAsleep) : FutexSystem :=
  { s with asleep := Function.update s.asleep a (some w) }

def acquireProp (s : FutexSystem) (a : ℕ) : Exec FutexSystem := do
  let futex ← s.futex a
  let lock ← acquireAlone futex.lockProp
  .ok (s.setFutex a { futex with lockProp := lock })

def releaseProp (s : FutexSystem) (a : ℕ) : Exec FutexSystem := do
  let futex ← s.futex a
  .ok (s.setFutex a { futex with lockProp := futex.lockProp.spinlockRelease })

/-- The lookup of `futexFind`, where `calloc` returns `new` if there is no futex yet. -/
def futexLookup (s : FutexSystem) (phys new : ℕ) : Exec (FutexSystem × ℕ) :=
  if AvlHeader.avlLookup s.firstFutex phys ≠ 0 then .ok (s, AvlHeader.avlLookup s.firstFutex phys)
  else do
    let firstFutex ← AvlHeader.avlAllocate s.firstFutex phys new
    let ll ← LLcontrol.zero.linkedListInit futexAsleepSize
    .ok ({ s with firstFutex := firstFutex }.setFutex new ⟨⟨false⟩, ll⟩, new)

def futexFind (s : FutexSystem) (phys new : ℕ) : Exec (FutexSystem × ℕ) := do
  let lock ← acquireAlone s.lockAvlFutex
  let (s, futex) ← { s with lockAvlFutex := lock }.futexLookup phys new
  let s ← s.acquireProp futex
  .ok ({ s with lockAvlFutex := s.lockAvlFutex.spinlockRelease }, futex)

/-- `FUTEX_WAIT` up to the sleep. -/
def wait (s : FutexSystem) (phys newFutex newAsleep : ℕ) : Exec FutexSystem := do
  let (s, a) ← s.futexFind phys newFutex
  let futex ← s.futex a
  let (links, ll) ← s.links.linkedListAllocate s.fuel futex.firstAsleep futexAsleepSize newAsleep
  let s := { s with links := links, allocated := s.allocated + 1 }
  let s := (s.setFutex a { futex with firstAsleep := ll }).write newAsleep ⟨a, false⟩
  s.releaseProp a

/-- `FUTEX_WAIT` after the sleep. -/
def exit (s : FutexSystem) (asleep : ℕ) (signalPending : Bool) : Exec FutexSystem := do
  let newfutex := (← s.read asleep).above
  let s ← s.acquireProp newfutex
  let w ← s.read asleep
  let ret := if w.awoken then 0 else if signalPending then err eintr else err etimedout
  let futex ← s.futex newfutex
  let (links, ll, res) ← s.links.linkedListRemove s.fuel futex.firstAsleep futexAsleepSize asleep
  if res then
    let s := { s with links := links, asleep := Function.update s.asleep asleep none, returned := ret :: s.returned }
    (s.setFutex newfutex { futex with firstAsleep := ll }).releaseProp newfutex
  else .error .assertion

def wakeLoop (value : ℕ) : ℕ → FutexSystem → ℕ → ℕ → Exec (FutexSystem × ℕ)
  | 0, _, _, _ => .error .halt
  | fuel + 1, s, browse, awokenCnt =>
    if browse = 0 then .ok (s, awokenCnt)
    else do
      let w ← s.read browse
      let n ← s.links.next browse
      if w.awoken = false ∧ awokenCnt < value then
        wakeLoop value fuel (s.write browse { w with awoken := true }) n (awokenCnt + 1)
      else wakeLoop value fuel s n awokenCnt

/-- `FUTEX_WAKE`. -/
def wake (s : FutexSystem) (phys value newFutex : ℕ) : Exec FutexSystem := do
  let (s, a) ← s.futexFind phys newFutex
  let futex ← s.futex a
  let (s, awokenCnt) ← wakeLoop value s.fuel s futex.firstAsleep.firstObject 0
  let s ← s.releaseProp a
  .ok { s with returned := awokenCnt :: s.returned }

/-- A waiter goes from one list to the end of the other. -/
def requeueMove (s : FutexSystem) (a a2 browse : ℕ) : Exec FutexSystem := do
  let futex ← s.futex a
  let (links, ll, res) ← s.links.linkedListUnregister s.fuel futex.firstAsleep futexAsleepSize browse
  if res then
    let s := { s with links := Function.update links browse (some 0) }
    let s := s.setFutex a { futex with firstAsleep := ll }
    let w ← s.read browse
    let s := s.write browse { w with above := a2 }
    let futex2 ← s.futex a2
    let (links, ll) ← s.links.linkLast s.fuel futex2.firstAsleep browse
    let s := { s with links := links }
    .ok (s.setFutex a2 { futex2 with firstAsleep := ll })
  else .error .assertion

def requeueLoop (a a2 value val2 : ℕ) : ℕ → FutexSystem → ℕ → ℕ → ℕ → Exec (FutexSystem × ℕ)
  | 0, _, _, _, _ => .error .halt
  | fuel + 1, s, browse, awokenCnt, movedCnt =>
    if browse = 0 then .ok (s, awokenCnt + movedCnt)
    else do
      let w ← s.read browse
      let n ← s.links.next browse
      if w.awoken = false ∧ awokenCnt < value then
        requeueLoop a a2 value val2 fuel (s.write browse { w with awoken := true }) n (awokenCnt + 1) movedCnt
      else if w.awoken = false ∧ movedCnt < val2 then
        let s ← s.requeueMove a a2 browse
        requeueLoop a a2 value val2 fuel s n awokenCnt (movedCnt + 1)
      else requeueLoop a a2 value val2 fuel s n awokenCnt movedCnt

/-- `FUTEX_REQUEUE`. Every round goes one waiter further or moves one. -/
def requeue (s : FutexSystem) (phys phys2 value val2 newFutex newFutex2 : ℕ) : Exec FutexSystem := do
  let (s, a) ← s.futexFind phys newFutex
  let (s, a2) ← s.futexFind phys2 newFutex2
  let futex ← s.futex a
  let (s, cnt) ← requeueLoop a a2 value val2 (s.fuel + val2) s futex.firstAsleep.firstObject 0 0
  let s ← s.releaseProp a2
  let s ← s.releaseProp a
  .ok { s with returned := cnt :: s.returned }

end FutexSystem

/-- The calls, with what `atomicRead32` and the allocators return. -/
inductive FutexEvent where
  | wait (addr word value newFutex newAsleep : ℕ)
  | exit (asleep : ℕ) (signalPending : Bool)
  | wake (addr value newFutex : ℕ)
  | requeue (addr addr2 value val2 newFutex newFutex2 : ℕ)
  deriving DecidableEq, Repr

namespace FutexSystem

variable (virtualToPhysical : ℕ → ℕ)

/-- The key of an address: nothing for an address that the call refuses. -/
def key (addr : ℕ) : Exec (Option ℕ) :=
  if addr = 0 ∨ addr % 4 ≠ 0 then .ok none
  else if virtualToPhysical addr = 0 then .error .assertion
  else .ok (some (virtualToPhysical addr))

def refuse (s : FutexSystem) (errno : ℕ) : FutexSystem := { s with returned := err errno :: s.returned }

def step (s : FutexSystem) : FutexEvent → Exec FutexSystem
  | .wait addr word value newFutex newAsleep => do
    match ← key virtualToPhysical addr with
    | none => .ok (s.refuse einval)
    | some phys => if word ≠ value then .ok (s.refuse eagain) else s.wait phys newFutex newAsleep
  | .exit asleep signalPending => s.exit asleep signalPending
  | .wake addr value newFutex => do
    match ← key virtualToPhysical addr with
    | none => .ok (s.refuse einval)
    | some phys => s.wake phys value newFutex
  | .requeue addr addr2 value val2 newFutex newFutex2 => do
    match ← key virtualToPhysical addr with
    | none => .ok (s.refuse einval)
    | some phys =>
      match ← key virtualToPhysical addr2 with
      | none => .ok (s.refuse einval)
      | some phys2 => s.requeue phys phys2 value val2 newFutex newFutex2

/-- The waiters from `p` on, each with whether it was awoken. -/
def waiters (s : FutexSystem) : ℕ → ℕ → List (ℕ × Bool)
  | 0, _ => []
  | fuel + 1, p =>
    match s.links p, s.asleep p with
    | some n, some w => (p, w.awoken) :: s.waiters fuel n
    | _, _ => []

/-- The waiters of a key in the order of the list. -/
def queueOf (s : FutexSystem) (phys : ℕ) : List (ℕ × Bool) :=
  if AvlHeader.avlLookup s.firstFutex phys = 0 then []
  else
    match s.futexes (AvlHeader.avlLookup s.firstFutex phys) with
    | none => []
    | some futex => s.waiters s.fuel futex.firstAsleep.firstObject

end FutexSystem

end DualFuse.Syscalls
