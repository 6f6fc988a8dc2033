import DualFuse.Library.Execution

/-! Unix sockets (`syscalls/unixSocket.cpp`): the sockets and pairs, the open files that
refer to them, and the calls that open, bind, listen, connect, accept, duplicate and
close. Each call is one step; a wait in `accept` is a step that finds nothing, and the
wait of `connect` for its acceptance reads the pair only and is left out, as are the
buffers, the locks and the poll notifications. A socket, a pair or an open file is named
by a number that is never used again; a use of a pair or a socket that was freed, of a
null pointer or of a slot outside an array is a fault. The counts of descriptors are
integers: an `int` overflows only past `2 ^ 31` open files. -/

namespace DualFuse.Syscalls

open Library

structure UnixSocketPair where
  established : Bool
  serverFds : ℤ
  filename : Option String
  clientFds : ℤ
  deriving DecidableEq, Repr

structure UnixSocket where
  timesOpened : ℤ
  acceptWouldBlock : Bool
  bindAddr : Option String
  connMax : ℤ
  connCurr : ℤ
  backlog : List (Option ℕ)
  pair : Option ℕ
  deriving DecidableEq, Repr

/-- What the `dir` of an open file points to, by the file's handlers. -/
inductive SocketDir where
  | socket (k : ℕ)
  | accept (p : ℕ)
  deriving DecidableEq, Repr

structure SocketFile where
  id : ℕ
  dir : SocketDir
  deriving DecidableEq, Repr

inductive SocketErrno where
  | enoent | ewouldblock | einval | enosys | enotsock | eaddrinuse | eisconn | econnrefused | einprogress
  deriving DecidableEq, Repr

/-- What a call returns. `waiting`: it has not returned yet. -/
inductive SocketReply where
  | done
  | fd (id : ℕ)
  | fds (first second : ℕ)
  | error (e : SocketErrno)
  | waiting
  deriving DecidableEq, Repr

namespace UnixSocket

/-- The length of the queue that `listen` asks for. -/
def listenMax (backlog : ℤ) : ℤ := if backlog = 0 then 1 else if backlog < 0 then 128 else backlog

theorem listenMax_pos (backlog : ℤ) : 0 < listenMax backlog := by
  unfold listenMax
  split_ifs <;> omega

def unixSocketListen (sock : UnixSocket) (backlog : ℤ) : UnixSocket :=
  { sock with connMax := listenMax backlog, backlog := List.replicate (listenMax backlog).toNat none }

/-- `parent->backlog[parent->connCurr++] = pair`. -/
def push (sock : UnixSocket) (p : ℕ) : Exec UnixSocket :=
  if 0 ≤ sock.connCurr ∧ sock.connCurr < sock.backlog.length then
    .ok { sock with backlog := sock.backlog.set sock.connCurr.toNat (some p), connCurr := sock.connCurr + 1 }
  else .error .fault

/-- `sock->backlog[0]`, which is then followed. -/
def first (sock : UnixSocket) : Exec ℕ :=
  match sock.backlog with
  | some p :: _ => .ok p
  | _ => .error .fault

/-- The first slot is cleared, `connMax - 1` slots are moved down by one, and the last slot
keeps its value. -/
def shift (sock : UnixSocket) : Exec UnixSocket :=
  if sock.connMax ≤ sock.backlog.length then
    let cleared := sock.backlog.set 0 none
    let moved := (sock.connMax - 1).toNat
    .ok { sock with
      backlog := (cleared.drop 1).take moved ++ cleared.drop moved
      connCurr := sock.connCurr - 1 }
  else .error .fault

end UnixSocket

/-- The open files, the list `dsUnixSocket` and the objects that are alive. The pairs
freed, and for each socket the pairs connected to it and those that its `accept`
returned, are kept in order. -/
structure UnixSockets where
  files : List SocketFile
  nextFile : ℕ
  dsUnixSocket : List ℕ
  sockets : ℕ → Option UnixSocket
  nextSocket : ℕ
  pairs : ℕ → Option UnixSocketPair
  nextPair : ℕ
  freed : List ℕ
  connected : ℕ → List ℕ
  accepted : ℕ → List ℕ

namespace UnixSockets

def start : UnixSockets :=
  ⟨[], 0, [], fun _ => none, 0, fun _ => none, 0, [], fun _ => [], fun _ => []⟩

def file (s : UnixSockets) (fd : ℕ) : Option SocketFile := s.files.find? (fun f => f.id = fd)

def socket (s : UnixSockets) (k : ℕ) : Exec UnixSocket :=
  match s.sockets k with
  | none => .error .fault
  | some sock => .ok sock

def pair (s : UnixSockets) (p : ℕ) : Exec UnixSocketPair :=
  match s.pairs p with
  | none => .error .fault
  | some pair => .ok pair

def setSocket (s : UnixSockets) (k : ℕ) (sock : UnixSocket) : UnixSockets :=
  { s with sockets := Function.update s.sockets k (some sock) }

def setPair (s : UnixSockets) (p : ℕ) (pair : UnixSocketPair) : UnixSockets :=
  { s with pairs := Function.update s.pairs p (some pair) }

/-- A new open file. -/
def openFile (s : UnixSockets) (dir : SocketDir) : UnixSockets :=
  { s with files := ⟨s.nextFile, dir⟩ :: s.files, nextFile := s.nextFile + 1 }

def unixSocketAcceptCreate (s : UnixSockets) (p : ℕ) : UnixSockets := s.openFile (.accept p)

def unixSocketAllocatePair (s : UnixSockets) (pair : UnixSocketPair) : UnixSockets :=
  { s with pairs := Function.update s.pairs s.nextPair (some pair), nextPair := s.nextPair + 1 }

def unixSocketFreePair (s : UnixSockets) (p : ℕ) : UnixSockets :=
  { s with pairs := Function.update s.pairs p none, freed := p :: s.freed }

/-- `unixSocketOpen` past the test of the type. -/
def openSocket (s : UnixSockets) : UnixSockets :=
  { s with
    dsUnixSocket := s.dsUnixSocket ++ [s.nextSocket]
    sockets := Function.update s.sockets s.nextSocket (some ⟨1, false, none, 0, 0, [], none⟩)
    nextSocket := s.nextSocket + 1 }.openFile (.socket s.nextSocket)

def unixSocketOpen (s : UnixSockets) (type : ℕ) : UnixSockets × SocketReply :=
  if type % 2 = 0 then (s, .error .enosys) else (s.openSocket, .fd s.nextFile)

/-- The first socket of the list with this address. -/
def bound (s : UnixSockets) (name : String) (l : List ℕ) : Option ℕ :=
  l.find? (fun k => ((s.sockets k).bind (·.bindAddr)) = some name)

/-- `stat` is what the file system has at the address: whether it is a socket. -/
def unixSocketBind (s : UnixSockets) (k : ℕ) (name : String) (stat : Option Bool) :
    Exec (UnixSockets × SocketReply) := do
  let sock ← s.socket k
  if sock.bindAddr.isSome then .ok (s, .error .einval)
  else match stat with
    | some false => .ok (s, .error .enotsock)
    | some true => .ok (s, .error .eaddrinuse)
    | none =>
      if (s.bound name s.dsUnixSocket).isSome then .ok (s, .error .eaddrinuse)
      else .ok (s.setSocket k { sock with bindAddr := some name }, .done)

def unixSocketListen (s : UnixSockets) (k : ℕ) (backlog : ℤ) : Exec (UnixSockets × SocketReply) := do
  let sock ← s.socket k
  .ok (s.setSocket k (sock.unixSocketListen backlog), .done)

/-- `accept` past its wait. -/
def acceptFirst (s : UnixSockets) (k : ℕ) (sock : UnixSocket) : Exec (UnixSockets × SocketReply) := do
  let p ← sock.first
  let pair ← s.pair p
  if pair.serverFds ≠ 0 then .error .assertion
  else match sock.bindAddr with
    | none => .error .fault
    | some name => do
      let s' := s.setPair p
        { pair with serverFds := pair.serverFds + 1, established := true, filename := some name }
      let sock ← sock.shift
      .ok ({ (s'.unixSocketAcceptCreate p).setSocket k sock with
        accepted := Function.update s.accepted k (s.accepted k ++ [p]) }, .fd s.nextFile)

/-- One round of the loop of `unixSocketAccept`. -/
def unixSocketAccept (s : UnixSockets) (k : ℕ) (nonblock : Bool) : Exec (UnixSockets × SocketReply) := do
  let sock ← s.socket k
  if sock.connCurr > 0 then s.acceptFirst k sock
  else if nonblock then .ok (s.setSocket k { sock with acceptWouldBlock := true }, .error .ewouldblock)
  else .ok (s.setSocket k { sock with acceptWouldBlock := false }, .waiting)

/-- `connect` once the socket `parent` is found. -/
def connectTo (s : UnixSockets) (k : ℕ) (sock : UnixSocket) (parent : ℕ) (nonblock : Bool) :
    Exec (UnixSockets × SocketReply) := do
  let parentSock ← s.socket parent
  if parentSock.acceptWouldBlock ∧ nonblock then .ok (s, .error .einprogress)
  else if parentSock.connMax = 0 then .ok (s, .error .econnrefused)
  else if nonblock then .error .assertion
  else if parentSock.connCurr ≥ parentSock.connMax then .ok (s, .error .econnrefused)
  else do
    let s' := (s.unixSocketAllocatePair ⟨false, 0, none, 1⟩).setSocket k { sock with pair := some s.nextPair }
    let parentSock ← parentSock.push s.nextPair
    .ok ({ s'.setSocket parent parentSock with
      connected := Function.update s.connected parent (s.connected parent ++ [s.nextPair]) }, .waiting)

/-- `unixSocketConnect` up to its wait for the acceptance. -/
def unixSocketConnect (s : UnixSockets) (k : ℕ) (name : String) (nonblock : Bool) :
    Exec (UnixSockets × SocketReply) := do
  let sock ← s.socket k
  if sock.connMax ≠ 0 then .ok (s, .error .econnrefused)
  else if sock.pair.isSome then .ok (s, .error .eisconn)
  else match s.bound name (s.dsUnixSocket.filter (fun parent => parent ≠ k)) with
    | none => .ok (s, .error .enoent)
    | some parent => s.connectTo k sock parent nonblock

def unixSocketPair (s : UnixSockets) (type : ℕ) : Exec (UnixSockets × SocketReply) :=
  if type % 2 = 0 then .ok (s, .error .enosys)
  else do
    let s' := s.openSocket.unixSocketAllocatePair ⟨false, 1, none, 1⟩
    let sock ← s'.socket s.nextSocket
    .ok ((s'.setSocket s.nextSocket { sock with pair := some s.nextPair }).unixSocketAcceptCreate s.nextPair,
      .fds s.nextFile (s.nextFile + 1))

/-- `unixSocket->pair->clientFds++`, if there is a pair. -/
def addClient (s : UnixSockets) (sock : UnixSocket) : Exec UnixSockets :=
  match sock.pair with
  | none => .ok s
  | some p => do
    let pair ← s.pair p
    .ok (s.setPair p { pair with clientFds := pair.clientFds + 1 })

def unixSocketDuplicate (s : UnixSockets) (k : ℕ) : Exec UnixSockets := do
  let sock ← s.socket k
  let s ← s.addClient sock
  .ok ((s.setSocket k { sock with timesOpened := sock.timesOpened + 1 }).openFile (.socket k))

def unixSocketAcceptDuplicate (s : UnixSockets) (p : ℕ) : Exec UnixSockets := do
  let pair ← s.pair p
  .ok ((s.setPair p { pair with serverFds := pair.serverFds + 1 }).openFile (.accept p))

/-- A pair that lost a descriptor is freed if it was the last one. -/
def dropDescriptor (s : UnixSockets) (p : ℕ) (pair : UnixSocketPair) : UnixSockets :=
  if pair.serverFds = 0 ∧ pair.clientFds = 0 then s.unixSocketFreePair p else s.setPair p pair

def unixSocketAcceptClose (s : UnixSockets) (p : ℕ) : Exec UnixSockets := do
  let pair ← s.pair p
  .ok (s.dropDescriptor p { pair with serverFds := pair.serverFds - 1 })

/-- The part of `unixSocketClose` about the pair. -/
def dropClient (s : UnixSockets) (sock : UnixSocket) : Exec UnixSockets :=
  match sock.pair with
  | none => .ok s
  | some p => do
    let pair ← s.pair p
    .ok (s.dropDescriptor p { pair with clientFds := pair.clientFds - 1 })

def unixSocketClose (s : UnixSockets) (k : ℕ) : Exec UnixSockets := do
  let sock ← s.socket k
  let s ← s.dropClient sock
  if sock.timesOpened - 1 = 0 then
    if k ∈ s.dsUnixSocket then
      .ok { s with dsUnixSocket := s.dsUnixSocket.erase k, sockets := Function.update s.sockets k none }
    else .error .assertion
  else .ok (s.setSocket k { sock with timesOpened := sock.timesOpened - 1 })

/-- The file leaves the open files before its handler runs. -/
def removeFile (s : UnixSockets) (fd : ℕ) : UnixSockets :=
  { s with files := s.files.eraseP (fun f => f.id = fd) }

end UnixSockets

/-- The calls, on descriptors by the number of their open file. -/
inductive SocketCall where
  | socket (type : ℕ)
  | socketpair (type : ℕ)
  | bind (fd : ℕ) (name : String) (stat : Option Bool)
  | listen (fd : ℕ) (backlog : ℤ)
  | connect (fd : ℕ) (name : String) (nonblock : Bool)
  | accept (fd : ℕ) (nonblock : Bool)
  | duplicate (fd : ℕ)
  | close (fd : ℕ)
  deriving DecidableEq, Repr

namespace UnixSockets

/-- A call on a closed descriptor, or one that the file's handlers do not have, changes nothing. -/
def onSocket (s : UnixSockets) (fd : ℕ) (f : ℕ → Exec (UnixSockets × SocketReply)) : Exec UnixSockets :=
  match s.file fd with
  | some ⟨_, .socket k⟩ => Prod.fst <$> f k
  | _ => .ok s

def duplicate (s : UnixSockets) (fd : ℕ) : Exec UnixSockets :=
  match s.file fd with
  | some ⟨_, .socket k⟩ => s.unixSocketDuplicate k
  | some ⟨_, .accept p⟩ => s.unixSocketAcceptDuplicate p
  | none => .ok s

def close (s : UnixSockets) (fd : ℕ) : Exec UnixSockets :=
  match s.file fd with
  | some ⟨_, .socket k⟩ => (s.removeFile fd).unixSocketClose k
  | some ⟨_, .accept p⟩ => (s.removeFile fd).unixSocketAcceptClose p
  | none => .ok s

def call (s : UnixSockets) : SocketCall → Exec UnixSockets
  | .socket type => .ok (s.unixSocketOpen type).1
  | .socketpair type => Prod.fst <$> s.unixSocketPair type
  | .bind fd name stat => s.onSocket fd (fun k => s.unixSocketBind k name stat)
  | .listen fd backlog => s.onSocket fd (fun k => s.unixSocketListen k backlog)
  | .connect fd name nonblock => s.onSocket fd (fun k => s.unixSocketConnect k name nonblock)
  | .accept fd nonblock => s.onSocket fd (fun k => s.unixSocketAccept k nonblock)
  | .duplicate fd => s.duplicate fd
  | .close fd => s.close fd

end UnixSockets

end DualFuse.Syscalls
