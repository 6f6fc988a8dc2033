import DualFuse.Syscalls.PollEvents

/-! The counter of an eventfd (`syscalls/eventfd.cpp`). A call takes the lock, tests the counter
and either is through, fails or lets go of the lock to try again later. Each try is one step,
so that a run of tries has the calls of all tasks in any order, waiting ones among them. -/

namespace DualFuse.Syscalls

abbrev EventFd := BitVec 64

inductive EventErrno where
  | einval | eintr | ewouldblock
  deriving DecidableEq, Repr

/-- What a try comes to. A read that returns has written a value to the buffer. -/
inductive EventReply where
  | read (value : BitVec 64)
  | written
  | error (e : EventErrno)
  | again
  deriving DecidableEq, Repr

namespace EventFd

def full : BitVec 64 := 0xffffffffffffffff

/-- Why a call cannot go on: a signal, or `O_NONBLOCK`; or else it tries again. -/
def held (nonblock signals : Bool) : EventReply :=
  if signals then .error .eintr else if nonblock then .error .ewouldblock else .again

def eventFdRead (nonblock signals : Bool) (limit : ℕ) (counter : EventFd) : EventReply × EventFd :=
  if limit < 8 then (.error .einval, counter)
  else if counter ≠ 0 then (.read counter, 0)
  else (held nonblock signals, counter)

def eventFdWrite (nonblock signals : Bool) (limit : ℕ) (toAdd : BitVec 64) (counter : EventFd) :
    EventReply × EventFd :=
  if limit < 8 ∨ toAdd = full then (.error .einval, counter)
  else if ¬toAdd > full - counter then (.written, counter + toAdd)
  else (held nonblock signals, counter)

def eventFdInternalPoll (events : ℕ) (counter : EventFd) : ℕ :=
  let revents := raise (events &&& epollin != 0 && counter > 0) epollin 0
  raise (events &&& epollout != 0 && counter < full) epollout revents

/-! ### Runs -/

/-- A try of a call, with the flags of its file and the signals of its task. -/
inductive Try where
  | read (nonblock signals : Bool) (limit : ℕ)
  | write (nonblock signals : Bool) (limit : ℕ) (toAdd : BitVec 64)

def Try.reply : Try → EventFd → EventReply × EventFd
  | .read nonblock signals limit => eventFdRead nonblock signals limit
  | .write nonblock signals limit toAdd => eventFdWrite nonblock signals limit toAdd

/-- The counter, and the sums of what was read and written so far. -/
structure Account where
  counter : EventFd
  read : ℕ
  written : ℕ

/-- What a reply adds to the sum of what was read. -/
def taken : EventReply → ℕ
  | .read value => value.toNat
  | _ => 0

/-- What a try with this reply adds to the sum of what was written. -/
def Try.given : Try → EventReply → ℕ
  | .write _ _ _ toAdd, .written => toAdd.toNat
  | _, _ => 0

def Account.step (a : Account) (t : Try) : Account :=
  let (reply, counter) := t.reply a.counter
  ⟨counter, a.read + taken reply, a.written + t.given reply⟩

def run (initValue : BitVec 64) (tries : List Try) : Account := tries.foldl Account.step ⟨initValue, 0, 0⟩

variable {nonblock signals : Bool} {limit : ℕ} {toAdd : BitVec 64} {counter : EventFd}

/-! ### One try -/

/-- There is room exactly if the sum stays below `2 ^ 64`. -/
theorem not_gt_iff : ¬toAdd > full - counter ↔ counter.toNat + toAdd.toNat < 2 ^ 64 := by
  have hcounter := counter.isLt
  have hadd := toAdd.isLt
  have hfull : full.toNat = 2 ^ 64 - 1 := rfl
  rw [gt_iff_lt, BitVec.lt_def, BitVec.toNat_sub, hfull]
  omega

theorem toNat_add_of_room (h : ¬toAdd > full - counter) : (counter + toAdd).toNat = counter.toNat + toAdd.toNat := by
  rw [BitVec.toNat_add, Nat.mod_eq_of_lt (not_gt_iff.mp h)]

theorem held_ne_read (value : BitVec 64) : held nonblock signals ≠ .read value := by
  cases nonblock <;> cases signals <;> simp [held]

theorem held_ne_written : held nonblock signals ≠ .written := by
  cases nonblock <;> cases signals <;> simp [held]

/-- A read either empties the counter or changes nothing. -/
theorem eventFdRead_cases (nonblock signals : Bool) (limit : ℕ) (counter : EventFd) :
    eventFdRead nonblock signals limit counter = (.read counter, 0) ∨
      ∃ reply, eventFdRead nonblock signals limit counter = (reply, counter) ∧ reply ≠ .written ∧
        ∀ value, reply ≠ .read value := by
  unfold eventFdRead
  split_ifs
  · exact Or.inr ⟨_, rfl, by simp, by simp⟩
  · exact Or.inl rfl
  · exact Or.inr ⟨_, rfl, held_ne_written, held_ne_read⟩

/-- A write either adds without overflow or changes nothing. -/
theorem eventFdWrite_cases (nonblock signals : Bool) (limit : ℕ) (toAdd : BitVec 64) (counter : EventFd) :
    (eventFdWrite nonblock signals limit toAdd counter = (.written, counter + toAdd) ∧
        (counter + toAdd).toNat = counter.toNat + toAdd.toNat) ∨
      ∃ reply, eventFdWrite nonblock signals limit toAdd counter = (reply, counter) ∧ reply ≠ .written ∧
        ∀ value, reply ≠ .read value := by
  unfold eventFdWrite
  split_ifs with hinval hroom
  · exact Or.inr ⟨_, rfl, by simp, by simp⟩
  · exact Or.inr ⟨_, rfl, held_ne_written, held_ne_read⟩
  · exact Or.inl ⟨rfl, toNat_add_of_room hroom⟩

theorem Account.step_conserves (a : Account) (t : Try) :
    (a.step t).counter.toNat + (a.step t).read + a.written = a.counter.toNat + a.read + (a.step t).written := by
  cases t with
  | read nonblock signals limit =>
    unfold step
    rcases eventFdRead_cases nonblock signals limit a.counter with h | ⟨reply, h, -, hread⟩
    · have hzero : (0 : EventFd).toNat = 0 := rfl
      simp only [Try.reply, h, taken, Try.given, hzero]
      omega
    · have htaken : taken reply = 0 := by
        cases reply with
        | read value => exact absurd rfl (hread value)
        | _ => rfl
      simp only [Try.reply, h, htaken, Try.given]
      omega
  | write nonblock signals limit toAdd =>
    unfold step
    rcases eventFdWrite_cases nonblock signals limit toAdd a.counter with ⟨h, hadd⟩ | ⟨reply, h, hwritten, hread⟩
    · simp only [Try.reply, h, hadd, taken, Try.given]
      omega
    · have htaken : taken reply = 0 := by
        cases reply with
        | read value => exact absurd rfl (hread value)
        | _ => rfl
      have hgiven : (Try.write nonblock signals limit toAdd).given reply = 0 := by
        cases reply with
        | written => exact absurd rfl hwritten
        | _ => rfl
      simp only [Try.reply, h, htaken, hgiven]
      omega

/-- The counter and what was read make up the initial value and what was written. -/
theorem run_conserves (initValue : BitVec 64) (tries : List Try) :
    (run initValue tries).counter.toNat + (run initValue tries).read =
      initValue.toNat + (run initValue tries).written := by
  unfold run
  induction tries using List.reverseRecOn with
  | nil => rfl
  | append_singleton tries t ih =>
    rw [List.foldl_append, List.foldl_cons, List.foldl_nil]
    have hstep := (tries.foldl Account.step ⟨initValue, 0, 0⟩).step_conserves t
    omega

/-- A reply that a caller does not have to wait for. -/
def Passes (reply : EventReply) : Prop := reply ≠ .again ∧ reply ≠ .error .ewouldblock

/-- The poll says of a counter whether a read or a write of 1 has to wait. -/
structure PollsTrue (counter : EventFd) : Prop where
  input : ∀ events nonblock limit, 8 ≤ limit → (eventFdInternalPoll events counter &&& epollin ≠ 0 ↔
    events &&& epollin ≠ 0 ∧ Passes (eventFdRead nonblock false limit counter).1)
  output : ∀ events nonblock limit, 8 ≤ limit → (eventFdInternalPoll events counter &&& epollout ≠ 0 ↔
    events &&& epollout ≠ 0 ∧ Passes (eventFdWrite nonblock false limit 1 counter).1)

theorem poll_and_epollin (events : ℕ) (counter : EventFd) :
    eventFdInternalPoll events counter &&& epollin ≠ 0 ↔ events &&& epollin ≠ 0 ∧ counter > 0 := by
  unfold eventFdInternalPoll
  cases hout : (events &&& epollout != 0 && counter < full) <;>
    cases hin : (events &&& epollin != 0 && counter > 0) <;> simp_all [raise, epollin, epollout]

theorem poll_and_epollout (events : ℕ) (counter : EventFd) :
    eventFdInternalPoll events counter &&& epollout ≠ 0 ↔ events &&& epollout ≠ 0 ∧ counter < full := by
  unfold eventFdInternalPoll
  cases hout : (events &&& epollout != 0 && counter < full) <;>
    cases hin : (events &&& epollin != 0 && counter > 0) <;> simp_all [raise, epollin, epollout]

theorem not_passes_held : ¬Passes (held nonblock false) := by
  cases nonblock <;> simp [held, Passes]

theorem eventFdRead_passes_iff (hlimit : 8 ≤ limit) :
    Passes (eventFdRead nonblock false limit counter).1 ↔ counter > 0 := by
  have hpos : counter > 0 ↔ counter ≠ 0 := BitVec.pos_iff_ne_zero counter
  rw [eventFdRead, if_neg (by omega), hpos]
  split_ifs with hzero
  · exact iff_of_true (by simp [Passes]) hzero
  · exact iff_of_false not_passes_held hzero

theorem eventFdWrite_passes_iff (hlimit : 8 ≤ limit) :
    Passes (eventFdWrite nonblock false limit 1 counter).1 ↔ counter < full := by
  have hroom : counter < full ↔ ¬(1 : BitVec 64) > full - counter := by
    have hcounter := counter.isLt
    have hfull : full.toNat = 2 ^ 64 - 1 := rfl
    have hone : (1 : BitVec 64).toNat = 1 := rfl
    rw [not_gt_iff, BitVec.lt_def, hfull, hone]
    omega
  rw [eventFdWrite, if_neg (by rw [not_or]; exact ⟨by omega, by decide⟩), hroom]
  split_ifs with hfull
  · exact iff_of_false not_passes_held (not_not.mpr hfull)
  · exact iff_of_true (by simp [Passes]) hfull

theorem pollsTrue (counter : EventFd) : PollsTrue counter where
  input events nonblock limit hlimit := by rw [poll_and_epollin, eventFdRead_passes_iff hlimit]
  output events nonblock limit hlimit := by rw [poll_and_epollout, eventFdWrite_passes_iff hlimit]

/-- The state of an eventfd after a run: nothing is lost, the next write does not wrap, a try
that does not succeed changes nothing, and the poll is true. -/
structure Conserved (initValue : BitVec 64) (tries : List Try) : Prop where
  total : (run initValue tries).counter.toNat + (run initValue tries).read =
    initValue.toNat + (run initValue tries).written
  no_wrap : ∀ nonblock signals limit toAdd counter,
    eventFdWrite nonblock signals limit toAdd (run initValue tries).counter = (.written, counter) →
      counter.toNat = (run initValue tries).counter.toNat + toAdd.toNat
  unchanged : ∀ (t : Try) reply counter, t.reply (run initValue tries).counter = (reply, counter) →
    reply ≠ .written → (∀ value, reply ≠ .read value) → counter = (run initValue tries).counter
  polls : PollsTrue (run initValue tries).counter

theorem eventFd_conserved (initValue : BitVec 64) (tries : List Try) : Conserved initValue tries where
  total := run_conserves initValue tries
  no_wrap nonblock signals limit toAdd counter h := by
    rcases eventFdWrite_cases nonblock signals limit toAdd (run initValue tries).counter with
      ⟨hcase, hadd⟩ | ⟨reply, hcase, hwritten, -⟩
    · rw [hcase] at h
      cases h
      exact hadd
    · rw [hcase] at h
      cases h
      exact absurd rfl hwritten
  unchanged t reply counter h hwritten hread := by
    cases t with
    | read nonblock signals limit =>
      rw [Try.reply] at h
      rcases eventFdRead_cases nonblock signals limit (run initValue tries).counter with hcase | ⟨_, hcase, -⟩
      · rw [hcase] at h
        cases h
        exact absurd rfl (hread _)
      · rw [hcase] at h
        cases h
        rfl
    | write nonblock signals limit toAdd =>
      rw [Try.reply] at h
      rcases eventFdWrite_cases nonblock signals limit toAdd (run initValue tries).counter with
        ⟨hcase, -⟩ | ⟨_, hcase, -⟩
      · rw [hcase] at h
        cases h
        exact absurd rfl hwritten
      · rw [hcase] at h
        cases h
        rfl
  polls := pollsTrue _

end EventFd

end DualFuse.Syscalls
