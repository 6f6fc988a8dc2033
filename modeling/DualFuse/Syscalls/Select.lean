import DualFuse.Library.BitArray
import DualFuse.Library.Execution
import DualFuse.Syscalls.PollEvents
import DualFuse.Utility.Words

/-! `select` and the `poll` under it (`syscalls/poll.cpp`). The bits of the three sets become one
array of entries, which grows as it is filled, and the entries that are ready become bits again.
A file that has an `internalPoll` has a key as well, and what waits on the keys changes no
entry. Time passes from one round of `poll` to the next, and with it what is ready. -/

namespace DualFuse.Syscalls.Select

open Library Utility

def epollToPollComp (events : ℕ) : ℕ :=
  let poll := raise (events &&& epollin != 0) pollin 0
  let poll := raise (events &&& epollout != 0) pollout poll
  let poll := raise (events &&& epollpri != 0) pollpri poll
  let poll := raise (events &&& epollerr != 0) pollerr poll
  raise (events &&& epollhup != 0) pollhup poll

def pollToEpollComp (events : ℕ) : ℕ :=
  let epoll := raise (events &&& pollin != 0) epollin 0
  let epoll := raise (events &&& pollout != 0) epollout epoll
  let epoll := raise (events &&& pollpri != 0) epollpri epoll
  let epoll := raise (events &&& pollerr != 0) epollerr epoll
  raise (events &&& pollhup != 0) epollhup epoll

def pollrdnorm : ℕ := 0x0040

structure PollFd where
  fd : ℕ
  events : ℕ
  revents : ℕ
  deriving DecidableEq, Repr

/-- A set of descriptors in memory of `size` bytes. -/
structure Bitmap where
  bytes : ℕ → BitVec 8
  size : ℕ

namespace Bitmap

def selectBitmap (m : Bitmap) (index : ℕ) : Exec Bool :=
  if index / 8 < m.size then .ok (BitArray.get m.bytes index) else .error .fault

def selectBitmapSet (m : Bitmap) (index : ℕ) : Exec Bitmap :=
  if index / 8 < m.size then .ok { m with bytes := BitArray.set m.bytes index true } else .error .fault

/-- `memset` to zero. -/
def zero (m : Bitmap) (n : ℕ) : Exec Bitmap :=
  if n ≤ m.size then .ok { m with bytes := fun i => if i < n then 0 else m.bytes i } else .error .fault

end Bitmap

inductive Which where
  | read | write | except
  deriving DecidableEq, Repr

/-- The events that a set asks for. -/
def ask : Which → ℕ
  | .read => pollin
  | .write => pollout
  | .except => pollpri ||| pollerr

/-- The arguments of the call; a null pointer stands for no set. -/
abbrev Sets := Which → Option Bitmap

/-! ### The entries -/

/-- The array `comp` with its size in bytes. -/
structure Comp where
  fds : List PollFd
  compLength : ℕ

/-- An entry takes 8 bytes. One that is not inside the array is a fault. -/
def Comp.selectAdd (c : Comp) (fd events : ℕ) : Exec Comp :=
  let compLength := if (c.fds.length + 1) * 8 ≥ c.compLength then c.compLength * 2 else c.compLength
  if (c.fds.length + 1) * 8 ≤ compLength then .ok ⟨c.fds ++ [⟨fd, events, 0⟩], compLength⟩ else .error .fault

/-- One descriptor of a set. -/
def addBit (m : Bitmap) (w : Which) (c : Comp) (i : ℕ) : Exec Comp := do
  let b ← m.selectBitmap i
  if b then c.selectAdd i (ask w) else .ok c

def addSet (nfds : ℕ) (sets : Sets) (w : Which) (c : Comp) : Exec Comp :=
  match sets w with
  | none => .ok c
  | some m => (List.range nfds).foldlM (addBit m w) c

def addSets (nfds : ℕ) (sets : Sets) : Exec Comp := do
  let c ← addSet nfds sets .read ⟨[], 8⟩
  let c ← addSet nfds sets .write c
  addSet nfds sets .except c

/-- `CEILING_DIVISION(nfds, 8)` on an `int`. -/
def toZero (nfds : ℕ) : ℤ := (wrapInt (wrapInt (nfds + 8) - 1)).tdiv 8

def zeroSet (nfds : ℕ) (sets : Sets) (w : Which) : Exec Sets :=
  match sets w with
  | none => .ok sets
  | some m => do
    let m ← m.zero (intToSize (toZero nfds))
    .ok (Function.update sets w (some m))

def clearSets (nfds : ℕ) (sets : Sets) : Exec Sets := do
  let sets ← zeroSet nfds sets .read
  let sets ← zeroSet nfds sets .write
  zeroSet nfds sets .except

/-! ### Polling -/

/-- What a descriptor stands for. -/
inductive PolledFile where
  | closed
  | plain
  | polled (internalPoll : ℕ → ℕ)

/-- The files in one round, and whether a signal is pending at its end. -/
structure Round where
  files : ℕ → PolledFile
  sigexit : Bool

def Round.pollEntry (r : Round) (e : PollFd) : PollFd :=
  match r.files e.fd with
  | .closed => { e with revents := 0 }
  | .plain =>
    if e.events &&& pollin ≠ 0 ∨ e.events &&& pollout ≠ 0 then
      { e with revents := if e.events &&& pollin ≠ 0 then pollin else pollout }
    else { e with revents := 0 }
  | .polled internalPoll =>
    let revents := epollToPollComp (internalPoll (pollToEpollComp e.events))
    { e with
      events := raise (revents &&& pollin != 0 && e.events &&& pollrdnorm != 0) pollrdnorm e.events
      revents := revents }

inductive Errno where
  | einval | eintr
  deriving DecidableEq, Repr

/-- The entries that `ret` counts. -/
def ready (fds : List PollFd) : ℕ := fds.countP fun e => e.revents ≠ 0

/-- The rounds of `poll`, until something is ready, a signal is pending or the time is over. -/
def pollRounds (fds : List PollFd) (r : Round) : List Round → List PollFd × Except Errno ℕ
  | [] =>
    let fds := fds.map r.pollEntry
    (fds, if ready fds = 0 ∧ r.sigexit then .error .eintr else .ok (ready fds))
  | r' :: rest =>
    let fds := fds.map r.pollEntry
    if ready fds > 0 ∨ r.sigexit then (fds, if ready fds = 0 ∧ r.sigexit then .error .eintr else .ok (ready fds))
    else pollRounds fds r' rest

/-- Entries beyond the first `nfds` are not looked at. -/
def poll (fds : List PollFd) (nfds : ℤ) (r : Round) (rest : List Round) : List PollFd × Except Errno ℕ :=
  if nfds < 0 then (fds, .error .einval)
  else
    let (polled, res) := pollRounds (fds.take nfds.toNat) r rest
    (polled ++ fds.drop nfds.toNat, res)

/-! ### The results -/

/-- The tests for the three sets. -/
def PollFd.reports (e : PollFd) : Which → Bool
  | .read => e.events &&& pollin != 0 && e.revents &&& pollin != 0
  | .write => e.events &&& pollout != 0 && e.revents &&& pollout != 0
  | .except =>
    (e.events &&& pollpri != 0 && e.revents &&& pollpri != 0) || (e.events &&& pollerr != 0 && e.revents &&& pollerr != 0)

/-- A null pointer is a fault. -/
def report (e : PollFd) (w : Which) (s : Sets × ℕ) : Exec (Sets × ℕ) :=
  if e.reports w then
    match s.1 w with
    | none => .error .fault
    | some m => do
      let m ← m.selectBitmapSet e.fd
      .ok (Function.update s.1 w (some m), s.2 + 1)
  else .ok s

def reportAll (s : Sets × ℕ) (e : PollFd) : Exec (Sets × ℕ) :=
  if e.revents = 0 then .ok s
  else do
    let s ← report e .read s
    let s ← report e .write s
    report e .except s

/-- What is made of the answer of `poll`. -/
def answer (sets : Sets) : List PollFd × Except Errno ℕ → Exec (Except Errno (Sets × ℕ))
  | (_, .error e) => .ok (.error e)
  | (fds, .ok _) => do
    let s ← fds.foldlM reportAll (sets, 0)
    .ok (.ok s)

/-- The number of entries is passed as an `int`. -/
def select (nfds : ℕ) (sets : Sets) (r : Round) (rest : List Round) : Exec (Except Errno (Sets × ℕ)) := do
  let c ← addSets nfds sets
  let sets ← clearSets nfds sets
  answer sets (poll c.fds (wrapInt c.fds.length) r rest)

/-! ### What is asked of it -/

/-- The condition of a set, for one file. -/
def Ready (w : Which) : PolledFile → Prop
  | .closed => False
  | .plain => w ≠ .except
  | .polled internalPoll => epollToPollComp (internalPoll (pollToEpollComp (ask w))) &&& ask w ≠ 0

instance (w : Which) (f : PolledFile) : Decidable (Ready w f) :=
  match f with
  | .closed => isFalse id
  | .plain => inferInstanceAs (Decidable (w ≠ .except))
  | .polled _ => inferInstanceAs (Decidable (_ ≠ _))

/-- The descriptors of the sets, in the order of the entries. -/
def members (nfds : ℕ) (sets : Sets) (w : Which) : List ℕ :=
  match sets w with
  | none => []
  | some m => (List.range nfds).filter fun i => BitArray.get m.bytes i

def entries (nfds : ℕ) (sets : Sets) : List (Which × ℕ) :=
  [Which.read, .write, .except].flatMap fun w => (members nfds sets w).map (Prod.mk w)

def entry (p : Which × ℕ) : PollFd := ⟨p.2, ask p.1, 0⟩

/-- The entries that are passed to `poll`. -/
def polledEntries (nfds : ℕ) (sets : Sets) : List (Which × ℕ) :=
  (entries nfds sets).take (wrapInt (entries nfds sets).length).toNat

/-- The round after which `poll` returns. -/
def lastRound (fds : List PollFd) (r : Round) : List Round → Round
  | [] => r
  | r' :: rest => if ready (fds.map r.pollEntry) > 0 ∨ r.sigexit then r else lastRound fds r' rest

/-- The last round of a call. -/
def finalRound (nfds : ℕ) (sets : Sets) (r : Round) (rest : List Round) : Round :=
  lastRound ((polledEntries nfds sets).map entry) r rest

/-- What `poll` makes of the entries. -/
def pollResult (nfds : ℕ) (sets : Sets) (r : Round) (rest : List Round) : List PollFd × Except Errno ℕ :=
  poll ((entries nfds sets).map entry) (wrapInt (entries nfds sets).length) r rest

def Bitmap.bits (m : Bitmap) : ℕ := (List.range (8 * m.size)).countP fun i => BitArray.get m.bytes i

/-- The number of bits in all sets. -/
def bits (sets : Sets) : ℕ :=
  let count (w : Which) : ℕ := (sets w).elim 0 Bitmap.bits
  count .read + count .write + count .except

/-- A set of the result has the bits of the argument whose condition holds. -/
structure Selected (nfds : ℕ) (sets sets' : Sets) (files : ℕ → PolledFile) (ret : ℕ) : Prop where
  null : ∀ w, sets w = none → sets' w = none
  set : ∀ w m, sets w = some m → ∃ m', sets' w = some m' ∧ m'.size = m.size ∧
    ∀ i < 8 * m.size, BitArray.get m'.bytes i = true ↔ i < nfds ∧ BitArray.get m.bytes i = true ∧ Ready w (files i)
  ret : ret = bits sets'

/-- The call stays inside the sets and the array, and what it returns is right. -/
def SelectsWell (nfds : ℕ) (sets : Sets) (r : Round) (rest : List Round) : Prop :=
  ∃ res, select nfds sets r rest = .ok res ∧ ∀ sets' ret, res = .ok (sets', ret) →
    Selected nfds sets sets' (finalRound nfds sets r rest).files ret

end DualFuse.Syscalls.Select
