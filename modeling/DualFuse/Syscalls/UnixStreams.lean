import DualFuse.Library.Execution
import DualFuse.Syscalls.PollEvents
import DualFuse.Utility.Words

/-! Sending on a connected unix socket (`unixSocketSendto`, `unixSocketAcceptSendto` and the
polls of `syscalls/unixSocket.cpp`). The rings of `circular.h` are not part of the kernel's
sources: what they do is a parameter, with the free space that the header's macro gives. A
ring is never quite full, and the length of a send is cut to the size of the ring. -/

namespace DualFuse.Syscalls

open Library Utility

structure Circular where
  buffSize : ℕ
  readPtr : ℕ
  writePtr : ℕ
  deriving DecidableEq, Repr

/-- `CIRC_READABLE`. -/
def circReadable (wr rd sz : ℕ) : ℕ := wrap (wr + (2 ^ 64 - rd) + sz) % sz

/-- `CIRC_WRITABLE`. -/
def circWritable (wr rd sz : ℕ) : ℕ := wrap (rd + (2 ^ 64 - wr) + (2 ^ 64 - 1) + sz) % sz

/-- The functions on rings. What is written is as much as was asked for where it fits. -/
structure CircularImpl where
  readPoll : Circular → ℕ
  writePoll : Circular → ℕ
  write : Circular → ℕ → ℕ × Circular
  readPoll_eq : ∀ c, readPoll c = circReadable c.writePtr c.readPtr c.buffSize
  writePoll_eq : ∀ c, writePoll c = circWritable c.writePtr c.readPtr c.buffSize
  write_fits : ∀ c n, n ≤ writePoll c → (write c n).1 = n

def unixSockBuffDefault : ℕ := 262144
def unixSockPollExtra : ℕ := 4096 * 16

/-- A pair with its two rings. -/
structure StreamPair where
  serverFds : ℤ
  clientFds : ℤ
  serverBuffSize : ℕ
  clientBuffSize : ℕ
  serverBuff : Circular
  clientBuff : Circular

/-- A socket: its queue, if `listen` was called, and its pair, if it is connected. -/
structure StreamSocket where
  connMax : ℤ
  connCurr : ℤ
  pair : Option StreamPair

inductive SendReply where
  | sent (n : ℕ)
  | epipe | ewouldblock | enotconn
  | again
  deriving DecidableEq, Repr

section Calls
variable (impl : CircularImpl)

/-- A try of a send, with the length already cut: the lock is taken and the free space compared. -/
def sendLocked (peerFds : ℤ) (noblock : Bool) (buff : Circular) (limit : ℕ) : Exec (SendReply × Circular) :=
  if peerFds = 0 then .ok (.epipe, buff)
  else if noblock ∧ impl.writePoll buff < limit then .ok (.ewouldblock, buff)
  else if impl.writePoll buff ≥ limit then
    let (written, buff) := impl.write buff limit
    if written = limit then .ok (.sent limit, buff) else .error .assertion
  else .ok (.again, buff)

def unixSocketAcceptSendto (pair : StreamPair) (noblock : Bool) (limit : ℕ) : Exec (SendReply × StreamPair) := do
  let limit := if limit > pair.clientBuffSize then pair.clientBuffSize else limit
  let (reply, clientBuff) ← sendLocked impl pair.clientFds noblock pair.clientBuff limit
  .ok (reply, { pair with clientBuff := clientBuff })

def unixSocketSendto (socket : StreamSocket) (noblock : Bool) (limit : ℕ) : Exec (SendReply × StreamSocket) :=
  match socket.pair with
  | none => .ok (.enotconn, socket)
  | some pair => do
    let limit := if limit > pair.serverBuffSize then pair.serverBuffSize else limit
    let (reply, serverBuff) ← sendLocked impl pair.serverFds noblock pair.serverBuff limit
    .ok (reply, { socket with pair := some { pair with serverBuff := serverBuff } })

def unixSocketAcceptInternalPoll (pair : StreamPair) (events : ℕ) : ℕ :=
  let revents := raise (pair.clientFds = 0) epollhup 0
  let revents := raise (events &&& epollout != 0 && pair.clientFds ≠ 0 && impl.writePoll pair.clientBuff > 0)
    epollout revents
  raise (events &&& epollin != 0 && impl.readPoll pair.serverBuff > 0) epollin revents

def unixSocketInternalPoll (socket : StreamSocket) (events : ℕ) : ℕ :=
  if socket.connMax > 0 then
    let revents := raise (socket.connCurr < socket.connMax && events &&& epollout != 0) epollout 0
    raise (socket.connCurr > 0 && events &&& epollin != 0) epollin revents
  else
    match socket.pair with
    | none => epollhup
    | some pair =>
      let revents := raise (pair.serverFds = 0) epollhup 0
      let revents := raise (events &&& epollout != 0 && pair.serverFds ≠ 0 &&
        impl.writePoll pair.serverBuff > unixSockPollExtra) epollout revents
      raise (events &&& epollin != 0 && impl.readPoll pair.clientBuff > 0) epollin revents

end Calls

/-! ### Rings -/

/-- A ring of this size. -/
structure Circular.Sized (c : Circular) (size : ℕ) : Prop where
  buffSize : c.buffSize = size
  readPtr : c.readPtr < size
  writePtr : c.writePtr < size

def Circular.Drained (c : Circular) : Prop := c.readPtr = c.writePtr

variable {impl : CircularImpl} {c : Circular} {size limit : ℕ}

theorem circWritable_eq {wr rd sz : ℕ} (hwr : wr < sz) (hrd : rd < sz) (hsz : sz ≤ 2 ^ 63) :
    circWritable wr rd sz = if rd ≤ wr then sz - 1 - (wr - rd) else rd - wr - 1 := by
  unfold circWritable wrap
  split_ifs with hle
  · have hword : (rd + (2 ^ 64 - wr) + (2 ^ 64 - 1) + sz) % 2 ^ 64 = sz - 1 - (wr - rd) := by omega
    rw [hword, Nat.mod_eq_of_lt (by omega)]
  · have hword : (rd + (2 ^ 64 - wr) + (2 ^ 64 - 1) + sz) % 2 ^ 64 = (rd - wr - 1) + sz := by omega
    rw [hword, Nat.add_mod_right, Nat.mod_eq_of_lt (by omega)]

theorem Circular.Sized.writePoll_lt (h : c.Sized size) (hsize : size ≤ 2 ^ 63) : impl.writePoll c < size := by
  have hread := h.readPtr
  have hwrite := h.writePtr
  rw [impl.writePoll_eq, h.buffSize, circWritable_eq hwrite hread hsize]
  split_ifs <;> omega

theorem Circular.Sized.writePoll_drained (h : c.Sized size) (hsize : size ≤ 2 ^ 63) (hdrained : c.Drained) :
    impl.writePoll c = size - 1 := by
  have hread := h.readPtr
  have hwrite := h.writePtr
  unfold Circular.Drained at hdrained
  rw [impl.writePoll_eq, h.buffSize, circWritable_eq hwrite hread hsize, if_pos hdrained.le]
  omega

/-! ### Tries -/

/-- The answer of a try. -/
def answer {α : Type} (m : Exec (SendReply × α)) : Exec SendReply := Prod.fst <$> m

/-- A send is through, or waits for room, and there is room once the peer has drained the ring. -/
def Progresses (send : Circular → Exec SendReply) (size : ℕ) (buff : Circular) : Prop :=
  (∃ n, send buff = .ok (.sent n)) ∨
    (send buff = .ok .again ∨ send buff = .ok .ewouldblock) ∧
      ∀ drained : Circular, drained.Sized size → drained.Drained → ∃ n > 0, send drained = .ok (.sent n)

theorem sendLocked_sent {peerFds : ℤ} (hpeer : peerFds ≠ 0) (h : limit ≤ impl.writePoll c) (noblock : Bool) :
    answer (sendLocked impl peerFds noblock c limit) = .ok (.sent limit) := by
  have hblock : ¬(noblock ∧ impl.writePoll c < limit) := fun hblock => absurd hblock.2 (not_lt.mpr h)
  rw [sendLocked, if_neg hpeer, if_neg hblock, if_pos h]
  dsimp only
  rw [if_pos (impl.write_fits c limit h)]
  rfl

theorem sendLocked_waits {peerFds : ℤ} (hpeer : peerFds ≠ 0) (h : impl.writePoll c < limit) (noblock : Bool) :
    answer (sendLocked impl peerFds noblock c limit) = .ok (if noblock then .ewouldblock else .again) := by
  rw [sendLocked, if_neg hpeer]
  cases noblock
  · rw [if_neg (fun hblock => Bool.false_ne_true hblock.1), if_neg (not_le.mpr h)]
    rfl
  · rw [if_pos ⟨rfl, h⟩]
    rfl

/-- A send goes on exactly if its length is below the size of the ring. -/
theorem sendLocked_progresses_iff {peerFds : ℤ} (hpeer : peerFds ≠ 0) (hc : c.Sized size) (hsize : size ≤ 2 ^ 63)
    (noblock : Bool) (limit : ℕ) :
    Progresses (fun buff => answer (sendLocked impl peerFds noblock buff (if limit > size then size else limit))) size c ↔
      limit < size := by
  constructor
  · intro h
    by_contra hlimit
    have hcut : (if limit > size then size else limit) = size := by
      split_ifs
      · rfl
      · omega
    have hfull (b : Circular) (hb : b.Sized size) (n : ℕ) :
        answer (sendLocked impl peerFds noblock b (if limit > size then size else limit)) ≠ .ok (.sent n) := by
      rw [hcut, sendLocked_waits hpeer (hb.writePoll_lt hsize)]
      cases noblock <;> simp
    have hpos : 0 < size := (Nat.zero_le _).trans_lt hc.readPtr
    have hzero : (⟨size, 0, 0⟩ : Circular).Sized size := ⟨rfl, hpos, hpos⟩
    rcases h with ⟨n, hn⟩ | ⟨-, hdrained⟩
    · exact hfull c hc n hn
    · obtain ⟨n, -, hn⟩ := hdrained ⟨size, 0, 0⟩ hzero rfl
      exact hfull _ hzero n hn
  · intro hlimit
    have hcut : (if limit > size then size else limit) = limit := if_neg (by omega)
    unfold Progresses
    simp only [hcut]
    by_cases hroom : limit ≤ impl.writePoll c
    · exact Or.inl ⟨limit, sendLocked_sent hpeer hroom noblock⟩
    · refine Or.inr ⟨?_, fun drained hd hempty => ⟨limit, by omega, sendLocked_sent hpeer ?_ noblock⟩⟩
      · rw [sendLocked_waits hpeer (by omega)]
        cases noblock
        · exact Or.inl rfl
        · exact Or.inr rfl
      · rw [hd.writePoll_drained hsize hempty]
        omega

theorem sendLocked_one {peerFds : ℤ} (hpeer : peerFds ≠ 0) :
    answer (sendLocked impl peerFds true c 1) ≠ .ok .ewouldblock ↔ 0 < impl.writePoll c := by
  by_cases hroom : 1 ≤ impl.writePoll c
  · rw [sendLocked_sent hpeer hroom]
    exact iff_of_true (by simp) hroom
  · rw [sendLocked_waits hpeer (by omega)]
    exact iff_of_false (by simp) (by omega)

/-! ### The two ends -/

/-- The rings of a pair as they are allocated. -/
structure StreamPair.Allocated (pair : StreamPair) : Prop where
  serverBuffSize : pair.serverBuffSize = unixSockBuffDefault
  clientBuffSize : pair.clientBuffSize = unixSockBuffDefault
  serverBuff : pair.serverBuff.Sized unixSockBuffDefault
  clientBuff : pair.clientBuff.Sized unixSockBuffDefault

/-- The end of `accept`: a send goes on, and a poll that reports room is right for one byte. -/
structure AcceptSends (impl : CircularImpl) (pair : StreamPair) (noblock : Bool) (limit : ℕ) : Prop where
  progresses : Progresses (fun buff => answer (unixSocketAcceptSendto impl { pair with clientBuff := buff } noblock limit))
    unixSockBuffDefault pair.clientBuff
  polls : ∀ events, unixSocketAcceptInternalPoll impl pair events &&& epollout ≠ 0 →
    answer (unixSocketAcceptSendto impl pair true 1) ≠ .ok .ewouldblock

/-- The same for the end of `connect`. -/
structure SocketSends (impl : CircularImpl) (connMax connCurr : ℤ) (pair : StreamPair) (noblock : Bool) (limit : ℕ) :
    Prop where
  progresses : Progresses
    (fun buff => answer (unixSocketSendto impl ⟨connMax, connCurr, some { pair with serverBuff := buff }⟩ noblock limit))
    unixSockBuffDefault pair.serverBuff
  polls : ∀ events, unixSocketInternalPoll impl ⟨connMax, connCurr, some pair⟩ events &&& epollout ≠ 0 →
    answer (unixSocketSendto impl ⟨connMax, connCurr, some pair⟩ true 1) ≠ .ok .ewouldblock

variable {pair : StreamPair}

theorem answer_bind {α β : Type} (m : Exec (SendReply × α)) (f : α → β) :
    answer (m >>= fun (reply, a) => .ok (reply, f a)) = answer m := by
  cases m <;> rfl

theorem unixSocketAcceptSendto_answer (impl : CircularImpl) (pair : StreamPair) (noblock : Bool) (limit : ℕ) :
    answer (unixSocketAcceptSendto impl pair noblock limit) =
      answer (sendLocked impl pair.clientFds noblock pair.clientBuff
        (if limit > pair.clientBuffSize then pair.clientBuffSize else limit)) :=
  answer_bind _ fun clientBuff => { pair with clientBuff := clientBuff }

theorem unixSocketSendto_answer (impl : CircularImpl) (connMax connCurr : ℤ) (pair : StreamPair) (noblock : Bool)
    (limit : ℕ) :
    answer (unixSocketSendto impl ⟨connMax, connCurr, some pair⟩ noblock limit) =
      answer (sendLocked impl pair.serverFds noblock pair.serverBuff
        (if limit > pair.serverBuffSize then pair.serverBuffSize else limit)) :=
  answer_bind _ fun serverBuff => StreamSocket.mk connMax connCurr (some { pair with serverBuff := serverBuff })

theorem raised_epollout (hup out inp : Bool) :
    raise inp epollin (raise out epollout (raise hup epollhup 0)) &&& epollout ≠ 0 ↔ out = true := by
  cases hup <;> cases out <;> cases inp <;> decide

theorem listening_epollout (out inp : Bool) :
    raise inp epollin (raise out epollout 0) &&& epollout ≠ 0 ↔ out = true := by
  cases out <;> cases inp <;> decide

theorem acceptSends_iff (hpair : pair.Allocated) (hpeer : pair.clientFds ≠ 0) (noblock : Bool) (limit : ℕ) :
    AcceptSends impl pair noblock limit ↔ limit < unixSockBuffDefault := by
  have hprogresses : Progresses (fun buff => answer (sendLocked impl _ noblock buff _)) _ pair.clientBuff ↔ _ :=
    sendLocked_progresses_iff hpeer hpair.clientBuff (by decide) noblock limit
  constructor
  · intro h
    refine hprogresses.mp ?_
    have hsends := h.progresses
    simp only [unixSocketAcceptSendto_answer, hpair.clientBuffSize] at hsends
    exact hsends
  · intro hlimit
    refine ⟨?_, fun events hevents => ?_⟩
    · simp only [unixSocketAcceptSendto_answer, hpair.clientBuffSize]
      exact hprogresses.mpr hlimit
    · have hcut : (if 1 > pair.clientBuffSize then pair.clientBuffSize else 1) = 1 :=
        if_neg (by rw [hpair.clientBuffSize]; decide)
      rw [unixSocketAcceptSendto_answer, hcut, sendLocked_one hpeer]
      have hout := (raised_epollout _ _ _).mp hevents
      simp only [Bool.and_eq_true, decide_eq_true_eq] at hout
      exact hout.2

theorem socketSends_iff (hpair : pair.Allocated) (hpeer : pair.serverFds ≠ 0) (connMax connCurr : ℤ) (noblock : Bool)
    (limit : ℕ) :
    SocketSends impl connMax connCurr pair noblock limit ↔
      limit < unixSockBuffDefault ∧ (connMax ≤ 0 ∨ connMax ≤ connCurr ∨ 0 < impl.writePoll pair.serverBuff) := by
  have hprogresses : Progresses (fun buff => answer (sendLocked impl _ noblock buff _)) _ pair.serverBuff ↔ _ :=
    sendLocked_progresses_iff hpeer hpair.serverBuff (by decide) noblock limit
  have hcut : (if 1 > pair.serverBuffSize then pair.serverBuffSize else 1) = 1 :=
    if_neg (by rw [hpair.serverBuffSize]; decide)
  constructor
  · intro h
    refine ⟨hprogresses.mp ?_, ?_⟩
    · have hsends := h.progresses
      simp only [unixSocketSendto_answer, hpair.serverBuffSize] at hsends
      exact hsends
    · by_contra hfull
      simp only [not_or, not_le, not_lt] at hfull
      obtain ⟨hmax, hcurr, hzero⟩ := hfull
      refine h.polls epollout ?_ ?_
      · rw [unixSocketInternalPoll, if_pos hmax]
        refine (listening_epollout _ _).mpr ?_
        rw [decide_eq_true hcurr]
        rfl
      · have hsent : answer (sendLocked impl _ true pair.serverBuff 1) ≠ .ok .ewouldblock ↔ _ := sendLocked_one hpeer
        have hone := hsent.not.mpr (by omega)
        rw [unixSocketSendto_answer, hcut]
        exact not_not.mp hone
  · rintro ⟨hlimit, hroom⟩
    refine ⟨?_, fun events hevents => ?_⟩
    · simp only [unixSocketSendto_answer, hpair.serverBuffSize]
      exact hprogresses.mpr hlimit
    · rw [unixSocketSendto_answer, hcut, sendLocked_one hpeer]
      rw [unixSocketInternalPoll] at hevents
      split_ifs at hevents with hmax
      · have hout := (listening_epollout _ _).mp hevents
        simp only [Bool.and_eq_true, decide_eq_true_eq] at hout
        have hmax : 0 < connMax := hmax
        have hcurr : connCurr < connMax := hout.1
        omega
      · have hout := (raised_epollout _ _ _).mp hevents
        simp only [Bool.and_eq_true, decide_eq_true_eq] at hout
        exact (Nat.zero_le _).trans_lt hout.2

/-- Sends on the two ends of a connected pair go on, and their polls are right, exactly if the
length is below the size of the rings and no queue was set up on the connected socket that has
room where the ring has none. -/
theorem sends_iff (impl : CircularImpl) (hpair : pair.Allocated) (hserver : pair.serverFds ≠ 0)
    (hclient : pair.clientFds ≠ 0) (connMax connCurr : ℤ) (noblock : Bool) (limit : ℕ) :
    AcceptSends impl pair noblock limit ∧ SocketSends impl connMax connCurr pair noblock limit ↔
      limit < unixSockBuffDefault ∧ (connMax ≤ 0 ∨ connMax ≤ connCurr ∨ 0 < impl.writePoll pair.serverBuff) := by
  rw [acceptSends_iff hpair hclient, socketSends_iff hpair hserver]
  exact and_iff_right_of_imp And.left

/-- Rings that do what the header says. -/
def plainRings : CircularImpl where
  readPoll c := circReadable c.writePtr c.readPtr c.buffSize
  writePoll c := circWritable c.writePtr c.readPtr c.buffSize
  write c n :=
    let n := min n (circWritable c.writePtr c.readPtr c.buffSize)
    (n, { c with writePtr := (c.writePtr + n) % c.buffSize })
  readPoll_eq _ := rfl
  writePoll_eq _ := rfl
  write_fits _ _ h := min_eq_left h

/-- A pair whose rings are empty. -/
def emptyPair : StreamPair where
  serverFds := 1
  clientFds := 1
  serverBuffSize := unixSockBuffDefault
  clientBuffSize := unixSockBuffDefault
  serverBuff := ⟨unixSockBuffDefault, 0, 0⟩
  clientBuff := ⟨unixSockBuffDefault, 0, 0⟩

theorem emptyPair_allocated : emptyPair.Allocated :=
  ⟨rfl, rfl, ⟨rfl, by decide, by decide⟩, ⟨rfl, by decide, by decide⟩⟩

theorem sends_emptyPair :
    AcceptSends plainRings emptyPair false 1 ∧ SocketSends plainRings 0 0 emptyPair false 1 ↔
      1 < unixSockBuffDefault ∧ ((0 : ℤ) ≤ 0 ∨ (0 : ℤ) ≤ 0 ∨ 0 < plainRings.writePoll emptyPair.serverBuff) :=
  sends_iff plainRings emptyPair_allocated (by decide) (by decide) 0 0 false 1

/-- A send of as many bytes as a ring has waits for ever for room in an empty ring. -/
theorem full_length_send_waits :
    ¬(AcceptSends plainRings emptyPair false unixSockBuffDefault ∧
      SocketSends plainRings 0 0 emptyPair false unixSockBuffDefault) := by
  rintro ⟨h, -⟩
  have hlt := (acceptSends_iff emptyPair_allocated (by decide) false unixSockBuffDefault).mp h
  exact lt_irrefl _ hlt

end DualFuse.Syscalls
