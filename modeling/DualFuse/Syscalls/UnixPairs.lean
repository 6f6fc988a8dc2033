import DualFuse.Syscalls.UnixSocket

/-! The reference counts of socket pairs: `clientFds` counts the open files of the socket
that connected, `serverFds` those of the accepting side, and a pair is freed with its last
one. The counts go wrong when a socket with several descriptors connects, and a pair may
be freed while a backlog slot still holds it. -/

namespace DualFuse.Syscalls.UnixSockets

open Library

/-- The number of open files that refer to `dir`. -/
def opens (s : UnixSockets) (dir : SocketDir) : ℕ := s.files.countP (fun f => f.dir = dir)

/-- Some slot of a live socket's backlog holds the pair. -/
def InBacklog (s : UnixSockets) (p : ℕ) : Prop :=
  ∃ k sock, s.sockets k = some sock ∧ some p ∈ sock.backlog

/-- The counts are those of the open files, a pair is freed once and exactly when nothing
refers to it any more, and nothing refers to a freed pair. -/
structure PairsCounted (s : UnixSockets) : Prop where
  clients : ∀ k sock p pair, s.sockets k = some sock → sock.pair = some p → s.pairs p = some pair →
    pair.clientFds = s.opens (.socket k)
  unconnected : ∀ p pair, s.pairs p = some pair →
    (∀ k sock, s.sockets k = some sock → sock.pair ≠ some p) → pair.clientFds = 0
  servers : ∀ p pair, s.pairs p = some pair → pair.serverFds = s.opens (.accept p)
  freedOnce : s.freed.Nodup
  freed : ∀ p < s.nextPair, p ∈ s.freed ↔ s.pairs p = none
  unfreed : ∀ p pair, s.pairs p = some pair → pair.clientFds ≠ 0 ∨ pair.serverFds ≠ 0 ∨ s.InBacklog p
  descriptors : ∀ f ∈ s.files, ∀ p, f.dir = .accept p → (s.pairs p).isSome
  connections : ∀ k sock p, s.sockets k = some sock → sock.pair = some p → (s.pairs p).isSome
  slots : ∀ p, s.InBacklog p → (s.pairs p).isSome

/-- Some live socket is connected by the pair. -/
def Owned (sockets : ℕ → Option UnixSocket) (p : ℕ) : Prop :=
  ∃ k sock, sockets k = some sock ∧ sock.pair = some p

theorem Owned.update {sockets : ℕ → Option UnixSocket} {p k : ℕ} {sock sock' : UnixSocket} (h : Owned sockets p)
    (hk : sockets k = some sock) (hpair : sock'.pair = sock.pair) :
    Owned (Function.update sockets k (some sock')) p := by
  obtain ⟨j, sock₀, hj, hp⟩ := h
  by_cases hjk : j = k
  · subst hjk
    rw [hk] at hj
    cases hj
    exact ⟨j, sock', Function.update_self _ _ _, hpair.trans hp⟩
  · exact ⟨j, sock₀, (Function.update_of_ne hjk _ _).trans hj, hp⟩

theorem Owned.remove {sockets : ℕ → Option UnixSocket} {p k : ℕ} {sock : UnixSocket} (h : Owned sockets p)
    (hk : sockets k = some sock) (hpair : sock.pair ≠ some p) : Owned (Function.update sockets k none) p := by
  obtain ⟨j, sock₀, hj, hp⟩ := h
  have hjk : j ≠ k := by
    rintro rfl
    rw [hk] at hj
    cases hj
    exact hpair hp
  exact ⟨j, sock₀, (Function.update_of_ne hjk _ _).trans hj, hp⟩

/-- No slot of a live socket's backlog holds the pair. -/
def Unused (s : UnixSockets) (p : ℕ) : Prop := ∀ k < s.nextSocket, ∀ sock ∈ s.sockets k, some p ∉ sock.backlog

/-- The socket that a `connect` of socket `k` finds. -/
def reaches (s : UnixSockets) (k : ℕ) (name : String) : Option UnixSocket :=
  (s.bound name (s.dsUnixSocket.filter (fun parent => parent ≠ k))).bind s.sockets

/-- A socket that gets its pair from this `connect` has one descriptor. -/
def ConnectsAlone (s : UnixSockets) (name : String) (nonblock : Bool) : SocketDir → Prop
  | .socket k => ∀ sock ∈ s.sockets k, sock.connMax = 0 → sock.pair = none → nonblock = false →
      ∀ parent ∈ s.reaches k name, parent.connMax ≠ 0 → parent.connCurr < parent.connMax → sock.timesOpened = 1
  | .accept _ => True

/-- A pair that loses its last descriptor is in no backlog. -/
def ClosesUnused (s : UnixSockets) : SocketDir → Prop
  | .socket k => ∀ sock ∈ s.sockets k, ∀ p ∈ sock.pair, ∀ pair ∈ s.pairs p,
      pair.clientFds = 1 → pair.serverFds = 0 → s.Unused p
  | .accept p => ∀ pair ∈ s.pairs p, pair.clientFds = 0 → pair.serverFds = 1 → s.Unused p

/-- Connects happen on a socket with one descriptor, and no pair in a backlog loses its last one. -/
def PairSafe (s : UnixSockets) : SocketCall → Prop
  | .connect fd name nonblock => ∀ f ∈ s.file fd, s.ConnectsAlone name nonblock f.dir
  | .close fd => ∀ f ∈ s.file fd, s.ClosesUnused f.dir
  | _ => True

instance (s : UnixSockets) (p : ℕ) : Decidable (s.Unused p) :=
  inferInstanceAs (Decidable (∀ k < s.nextSocket, ∀ sock ∈ s.sockets k, _))

instance (s : UnixSockets) (name : String) (nonblock : Bool) :
    (dir : SocketDir) → Decidable (s.ConnectsAlone name nonblock dir)
  | .socket k => inferInstanceAs (Decidable (∀ sock ∈ s.sockets k, _ → _ → _ → ∀ parent ∈ s.reaches k name, _))
  | .accept _ => isTrue trivial

instance (s : UnixSockets) : (dir : SocketDir) → Decidable (s.ClosesUnused dir)
  | .socket k => inferInstanceAs (Decidable (∀ sock ∈ s.sockets k, ∀ p ∈ sock.pair, ∀ pair ∈ s.pairs p, _))
  | .accept p => inferInstanceAs (Decidable (∀ pair ∈ s.pairs p, _))

instance (s : UnixSockets) : (c : SocketCall) → Decidable (s.PairSafe c)
  | .connect fd _ _ => inferInstanceAs (Decidable (∀ f ∈ s.file fd, _))
  | .close fd => inferInstanceAs (Decidable (∀ f ∈ s.file fd, _))
  | .socket _ | .socketpair _ | .bind _ _ _ | .listen _ _ | .accept _ _ | .duplicate _ => isTrue trivial

/-- What the counts need, of the sockets and pairs alive and the number of open files for each. -/
structure Counts (sockets : ℕ → Option UnixSocket) (pairs : ℕ → Option UnixSocketPair) (opens : SocketDir → ℕ)
    (nextSocket nextPair : ℕ) (freed : List ℕ) : Prop where
  opened : ∀ k sock, sockets k = some sock → sock.timesOpened = opens (.socket k) ∧ 0 < opens (.socket k)
  closed : ∀ k, sockets k = none → opens (.socket k) = 0
  client : ∀ k sock p, sockets k = some sock → sock.pair = some p →
    ∃ pair, pairs p = some pair ∧ pair.clientFds = opens (.socket k)
  unique : ∀ j k sock sock' p, sockets j = some sock → sockets k = some sock' →
    sock.pair = some p → sock'.pair = some p → j = k
  owner : ∀ p pair, pairs p = some pair → pair.clientFds ≠ 0 → Owned sockets p
  server : ∀ p pair, pairs p = some pair → pair.serverFds = opens (.accept p)
  unserved : ∀ p, pairs p = none → opens (.accept p) = 0
  live : ∀ p pair, pairs p = some pair → pair.clientFds ≠ 0 ∨ pair.serverFds ≠ 0
  slots : ∀ k sock p, sockets k = some sock → some p ∈ sock.backlog → pairs p ≠ none
  freshSocket : ∀ k, nextSocket ≤ k → sockets k = none
  freshPair : ∀ p, nextPair ≤ p → pairs p = none ∧ p ∉ freed
  freedOnce : freed.Nodup
  freed : ∀ p < nextPair, p ∈ freed ↔ pairs p = none

namespace Counts

variable {sockets : ℕ → Option UnixSocket} {pairs : ℕ → Option UnixSocketPair} {opens opens' : SocketDir → ℕ}
  {nextSocket nextPair : ℕ} {freed : List ℕ} {k p : ℕ} {sock sock' : UnixSocket} {pair pair' : UnixSocketPair}

/-- A socket keeps its descriptors and its pair, and holds live pairs in its slots. -/
theorem setSocket (h : Counts sockets pairs opens nextSocket nextPair freed) (hk : sockets k = some sock)
    (hopened : sock'.timesOpened = sock.timesOpened) (hpair : sock'.pair = sock.pair)
    (hslots : ∀ p, some p ∈ sock'.backlog → pairs p ≠ none) :
    Counts (Function.update sockets k (some sock')) pairs opens nextSocket nextPair freed := by
  obtain ⟨opened, closed, client, unique, owner, server, unserved, live, slots, freshSocket, freshPair, once, freed⟩ := h
  have howner : ∀ q pair, pairs q = some pair → pair.clientFds ≠ 0 →
      Owned (Function.update sockets k (some sock')) q :=
    fun q pair hq hne => (owner q pair hq hne).update hk hpair
  constructor <;> grind [Function.update_apply]

/-- A descriptor is opened on the accepting side of a pair. -/
theorem addServer (h : Counts sockets pairs opens nextSocket nextPair freed) (hp : pairs p = some pair)
    (hclient : pair'.clientFds = pair.clientFds) (hserver : pair'.serverFds = pair.serverFds + 1)
    (hopens : ∀ dir, opens' dir = opens dir + if .accept p = dir then 1 else 0) :
    Counts sockets (Function.update pairs p (some pair')) opens' nextSocket nextPair freed := by
  obtain ⟨opened, closed, client, unique, owner, server, unserved, live, slots, freshSocket, freshPair, once, freed⟩ := h
  constructor <;> grind [Function.update_apply]

/-- A descriptor is opened on a socket without a pair. -/
theorem addUnpaired (h : Counts sockets pairs opens nextSocket nextPair freed) (hk : sockets k = some sock)
    (hpair : sock.pair = none) (hopened : sock'.timesOpened = sock.timesOpened + 1) (hpair' : sock'.pair = none)
    (hslots : sock'.backlog = sock.backlog)
    (hopens : ∀ dir, opens' dir = opens dir + if .socket k = dir then 1 else 0) :
    Counts (Function.update sockets k (some sock')) pairs opens' nextSocket nextPair freed := by
  obtain ⟨opened, closed, client, unique, owner, server, unserved, live, slots, freshSocket, freshPair, once, freed⟩ := h
  have howner : ∀ q pair, pairs q = some pair → pair.clientFds ≠ 0 →
      Owned (Function.update sockets k (some sock')) q :=
    fun q pair hq hne => (owner q pair hq hne).update hk (hpair'.trans hpair.symm)
  constructor <;> grind [Function.update_apply]

/-- A descriptor is opened on a socket with a pair. -/
theorem addPaired (h : Counts sockets pairs opens nextSocket nextPair freed) (hk : sockets k = some sock)
    (hpair : sock.pair = some p) (hopened : sock'.timesOpened = sock.timesOpened + 1) (hpair' : sock'.pair = some p)
    (hslots : sock'.backlog = sock.backlog) (hp : pairs p = some pair)
    (hclient : pair'.clientFds = pair.clientFds + 1) (hserver : pair'.serverFds = pair.serverFds)
    (hopens : ∀ dir, opens' dir = opens dir + if .socket k = dir then 1 else 0) :
    Counts (Function.update sockets k (some sock')) (Function.update pairs p (some pair')) opens' nextSocket nextPair
      freed := by
  obtain ⟨opened, closed, client, unique, owner, server, unserved, live, slots, freshSocket, freshPair, once, freed⟩ := h
  have howner : ∀ q pair, pairs q = some pair → pair.clientFds ≠ 0 →
      Owned (Function.update sockets k (some sock')) q :=
    fun q pair hq hne => (owner q pair hq hne).update hk (hpair'.trans hpair.symm)
  constructor <;> grind [Function.update_apply]

/-- A new socket with its first descriptor. -/
theorem openSocket (h : Counts sockets pairs opens nextSocket nextPair freed)
    (hopened : sock.timesOpened = 1) (hpair : sock.pair = none) (hslots : sock.backlog = [])
    (hopens : ∀ dir, opens' dir = opens dir + if .socket nextSocket = dir then 1 else 0) :
    Counts (Function.update sockets nextSocket (some sock)) pairs opens' (nextSocket + 1) nextPair freed := by
  obtain ⟨opened, closed, client, unique, owner, server, unserved, live, slots, freshSocket, freshPair, once, freed⟩ := h
  have howner : ∀ q pair, pairs q = some pair → pair.clientFds ≠ 0 →
      Owned (Function.update sockets nextSocket (some sock)) q := by
    intro q pair hq hne
    obtain ⟨j, sock₀, hj, hp⟩ := owner q pair hq hne
    have hjk : j ≠ nextSocket := by grind
    exact ⟨j, sock₀, (Function.update_of_ne hjk _ _).trans hj, hp⟩
  constructor <;> grind [Function.update_apply]

/-- A socket with one descriptor gets a new pair, which has `n` accepting descriptors. -/
theorem newPair (h : Counts sockets pairs opens nextSocket nextPair freed) (hk : sockets k = some sock)
    (hopened : sock.timesOpened = 1) (hpair : sock.pair = none) (hopened' : sock'.timesOpened = 1)
    (hpair' : sock'.pair = some nextPair) (hslots : sock'.backlog = sock.backlog) {n : ℕ}
    (hclient : pair'.clientFds = 1) (hserver : pair'.serverFds = n)
    (hopens : ∀ dir, opens' dir = opens dir + if .accept nextPair = dir then n else 0) :
    Counts (Function.update sockets k (some sock')) (Function.update pairs nextPair (some pair')) opens' nextSocket
      (nextPair + 1) freed := by
  obtain ⟨opened, closed, client, unique, owner, server, unserved, live, slots, freshSocket, freshPair, once, freed⟩ := h
  have hnew : Owned (Function.update sockets k (some sock')) nextPair := ⟨k, sock', Function.update_self _ _ _, hpair'⟩
  have howner : ∀ q pair, pairs q = some pair → pair.clientFds ≠ 0 →
      Owned (Function.update sockets k (some sock')) q := by
    intro q pair hq hne
    obtain ⟨j, sock₀, hj, hp⟩ := owner q pair hq hne
    have hjk : j ≠ k := by grind
    exact ⟨j, sock₀, (Function.update_of_ne hjk _ _).trans hj, hp⟩
  constructor <;> grind [Function.update_apply]

/-- One of several descriptors of a socket without a pair is closed. -/
theorem dropUnpaired (h : Counts sockets pairs opens nextSocket nextPair freed) (hk : sockets k = some sock)
    (hpair : sock.pair = none) (hopened : sock'.timesOpened = sock.timesOpened - 1) (hmore : sock'.timesOpened ≠ 0)
    (hpair' : sock'.pair = none) (hslots : sock'.backlog = sock.backlog)
    (hopens : ∀ dir, opens dir = opens' dir + if .socket k = dir then 1 else 0) :
    Counts (Function.update sockets k (some sock')) pairs opens' nextSocket nextPair freed := by
  obtain ⟨opened, closed, client, unique, owner, server, unserved, live, slots, freshSocket, freshPair, once, freed⟩ := h
  have howner : ∀ q pair, pairs q = some pair → pair.clientFds ≠ 0 →
      Owned (Function.update sockets k (some sock')) q :=
    fun q pair hq hne => (owner q pair hq hne).update hk (hpair'.trans hpair.symm)
  constructor <;> grind [Function.update_apply]

/-- One of several descriptors of a socket with a pair is closed. -/
theorem dropPaired (h : Counts sockets pairs opens nextSocket nextPair freed) (hk : sockets k = some sock)
    (hpair : sock.pair = some p) (hopened : sock'.timesOpened = sock.timesOpened - 1) (hmore : sock'.timesOpened ≠ 0)
    (hpair' : sock'.pair = some p) (hslots : sock'.backlog = sock.backlog) (hp : pairs p = some pair)
    (hclient : pair'.clientFds = pair.clientFds - 1) (hserver : pair'.serverFds = pair.serverFds)
    (hopens : ∀ dir, opens dir = opens' dir + if .socket k = dir then 1 else 0) :
    Counts (Function.update sockets k (some sock')) (Function.update pairs p (some pair')) opens' nextSocket nextPair
      freed := by
  obtain ⟨opened, closed, client, unique, owner, server, unserved, live, slots, freshSocket, freshPair, once, freed⟩ := h
  have howner : ∀ q pair, pairs q = some pair → pair.clientFds ≠ 0 →
      Owned (Function.update sockets k (some sock')) q :=
    fun q pair hq hne => (owner q pair hq hne).update hk (hpair'.trans hpair.symm)
  constructor <;> grind [Function.update_apply]

/-- The last descriptor of a socket without a pair is closed. -/
theorem removeUnpaired (h : Counts sockets pairs opens nextSocket nextPair freed) (hk : sockets k = some sock)
    (hpair : sock.pair = none) (hlast : sock.timesOpened = 1)
    (hopens : ∀ dir, opens dir = opens' dir + if .socket k = dir then 1 else 0) :
    Counts (Function.update sockets k none) pairs opens' nextSocket nextPair freed := by
  obtain ⟨opened, closed, client, unique, owner, server, unserved, live, slots, freshSocket, freshPair, once, freed⟩ := h
  have howner : ∀ q pair, pairs q = some pair → pair.clientFds ≠ 0 → Owned (Function.update sockets k none) q :=
    fun q pair hq hne => (owner q pair hq hne).remove hk (by rw [hpair]; exact Option.some_ne_none q ∘ Eq.symm)
  constructor <;> grind [Function.update_apply]

/-- The last descriptor of a socket is closed, and the pair stays with its accepting side. -/
theorem removePaired (h : Counts sockets pairs opens nextSocket nextPair freed) (hk : sockets k = some sock)
    (hpair : sock.pair = some p) (hlast : sock.timesOpened = 1) (hp : pairs p = some pair)
    (hclient : pair'.clientFds = pair.clientFds - 1) (hserver : pair'.serverFds = pair.serverFds)
    (hlive : pair.serverFds ≠ 0) (hopens : ∀ dir, opens dir = opens' dir + if .socket k = dir then 1 else 0) :
    Counts (Function.update sockets k none) (Function.update pairs p (some pair')) opens' nextSocket nextPair freed := by
  obtain ⟨opened, closed, client, unique, owner, server, unserved, live, slots, freshSocket, freshPair, once, freed⟩ := h
  have howner : ∀ q pair, q ≠ p → pairs q = some pair → pair.clientFds ≠ 0 →
      Owned (Function.update sockets k none) q :=
    fun q pair hqp hq hne => (owner q pair hq hne).remove hk (by rw [hpair]; exact fun heq => hqp (Option.some.inj heq).symm)
  constructor <;> grind [Function.update_apply]

/-- The last descriptor of a socket is closed and its pair is freed, which no slot holds. -/
theorem freePaired (h : Counts sockets pairs opens nextSocket nextPair freed) (hk : sockets k = some sock)
    (hpair : sock.pair = some p) (hlast : sock.timesOpened = 1) (hp : pairs p = some pair)
    (hserver : pair.serverFds = 0) (hunused : ∀ j sock, sockets j = some sock → some p ∉ sock.backlog)
    (hopens : ∀ dir, opens dir = opens' dir + if .socket k = dir then 1 else 0) :
    Counts (Function.update sockets k none) (Function.update pairs p none) opens' nextSocket nextPair (p :: freed) := by
  obtain ⟨opened, closed, client, unique, owner, server, unserved, live, slots, freshSocket, freshPair, once, freed⟩ := h
  have howner : ∀ q pair, q ≠ p → pairs q = some pair → pair.clientFds ≠ 0 →
      Owned (Function.update sockets k none) q :=
    fun q pair hqp hq hne => (owner q pair hq hne).remove hk (by rw [hpair]; exact fun heq => hqp (Option.some.inj heq).symm)
  constructor <;> grind [Function.update_apply]

/-- An accepting descriptor is closed, and the pair stays. -/
theorem dropServer (h : Counts sockets pairs opens nextSocket nextPair freed) (hp : pairs p = some pair)
    (hclient : pair'.clientFds = pair.clientFds) (hserver : pair'.serverFds = pair.serverFds - 1)
    (hlive : ¬ (pair'.serverFds = 0 ∧ pair'.clientFds = 0))
    (hopens : ∀ dir, opens dir = opens' dir + if .accept p = dir then 1 else 0) :
    Counts sockets (Function.update pairs p (some pair')) opens' nextSocket nextPair freed := by
  obtain ⟨opened, closed, client, unique, owner, server, unserved, live, slots, freshSocket, freshPair, once, freed⟩ := h
  constructor <;> grind [Function.update_apply]

/-- The last descriptor of a pair was an accepting one, and no slot holds the pair. -/
theorem freeServer (h : Counts sockets pairs opens nextSocket nextPair freed) (hp : pairs p = some pair)
    (hclient : pair.clientFds = 0) (hserver : pair.serverFds = 1)
    (hunused : ∀ j sock, sockets j = some sock → some p ∉ sock.backlog)
    (hopens : ∀ dir, opens dir = opens' dir + if .accept p = dir then 1 else 0) :
    Counts sockets (Function.update pairs p none) opens' nextSocket nextPair (p :: freed) := by
  obtain ⟨opened, closed, client, unique, owner, server, unserved, live, slots, freshSocket, freshPair, once, freed⟩ := h
  constructor <;> grind [Function.update_apply]

end Counts

/-- The state's counts. -/
def Counted (s : UnixSockets) : Prop := Counts s.sockets s.pairs s.opens s.nextSocket s.nextPair s.freed

namespace Counted

variable {s : UnixSockets} {k p : ℕ} {sock sock' : UnixSocket} {pair : UnixSocketPair}

theorem opens_openFile (s : UnixSockets) (dir dir' : SocketDir) :
    (s.openFile dir).opens dir' = s.opens dir' + if dir = dir' then 1 else 0 := by
  unfold opens openFile
  rw [List.countP_cons]
  simp

theorem countP_eraseP {α : Type} (l : List α) {q r : α → Bool} {a : α} (h : l.find? q = some a) :
    l.countP r = (l.eraseP q).countP r + if r a then 1 else 0 := by
  induction l with
  | nil => cases h
  | cons b l ih =>
    by_cases hb : q b
    · rw [List.find?_cons_of_pos hb] at h
      cases h
      rw [List.eraseP_cons_of_pos hb, List.countP_cons]
    · rw [List.find?_cons_of_neg (by simpa using hb)] at h
      rw [List.eraseP_cons_of_neg (by simpa using hb), List.countP_cons, List.countP_cons, ih h]
      omega

theorem opens_removeFile {fd : ℕ} {f : SocketFile} (h : s.file fd = some f) (dir : SocketDir) :
    s.opens dir = (s.removeFile fd).opens dir + if f.dir = dir then 1 else 0 := by
  unfold opens removeFile
  rw [countP_eraseP s.files h]
  simp

theorem of_start : Counted start := by
  constructor <;> simp [start, opens]

/-- A counted state has the claimed counts. -/
theorem pairsCounted (h : Counted s) : PairsCounted s where
  clients := fun k sock p pair hk hp hpair => by
    obtain ⟨pair', hpair', hclient⟩ := h.client k sock p hk hp
    rw [hpair] at hpair'
    cases hpair'
    exact hclient
  unconnected := fun p pair hpair hnone => by
    by_contra hne
    obtain ⟨k, sock, hk, hp⟩ := h.owner p pair hpair hne
    exact hnone k sock hk hp
  servers := h.server
  freedOnce := h.freedOnce
  freed := h.freed
  unfreed := fun p pair hpair => (h.live p pair hpair).imp_right Or.inl
  descriptors := fun f hf p hdir => by
    by_contra hnone
    have hzero := h.unserved p (by simpa using hnone)
    exact (List.countP_eq_zero.mp hzero) f hf (by simpa using hdir)
  connections := fun k sock p hk hp => by
    obtain ⟨pair, hpair, -⟩ := h.client k sock p hk hp
    rw [hpair]
    rfl
  slots := by
    rintro p ⟨k, sock, hk, hp⟩
    exact Option.isSome_iff_ne_none.mpr (h.slots k sock p hk hp)

theorem socket_meets (s : UnixSockets) (k : ℕ) :
    Exec.Meets (fun _ => True) (fun sock => s.sockets k = some sock) (s.socket k) := by
  unfold UnixSockets.socket
  cases hk : s.sockets k with
  | none => trivial
  | some sock => rfl

theorem pair_meets (s : UnixSockets) (p : ℕ) :
    Exec.Meets (fun _ => True) (fun pair => s.pairs p = some pair) (s.pair p) := by
  unfold UnixSockets.pair
  cases hp : s.pairs p with
  | none => trivial
  | some pair => rfl

theorem setSocket (h : Counted s) (hk : s.sockets k = some sock) (hopened : sock'.timesOpened = sock.timesOpened)
    (hpair : sock'.pair = sock.pair) (hslots : ∀ p, some p ∈ sock'.backlog → s.pairs p ≠ none) :
    Counted (s.setSocket k sock') := Counts.setSocket h hk hopened hpair hslots

theorem addServer (h : Counted s) (hp : s.pairs p = some pair) {pair' : UnixSocketPair}
    (hclient : pair'.clientFds = pair.clientFds) (hserver : pair'.serverFds = pair.serverFds + 1) :
    Counted ((s.setPair p pair').openFile (.accept p)) :=
  Counts.addServer h hp hclient hserver (opens_openFile (s.setPair p pair') (.accept p))

theorem openSocket (h : Counted s) : Counted s.openSocket :=
  Counts.openSocket h rfl rfl rfl (opens_openFile _ _)

theorem bind (h : Counted s) (k : ℕ) (name : String) (stat : Option Bool) :
    Exec.Meets (fun _ => True) (fun r => Counted r.1) (s.unixSocketBind k name stat) := by
  unfold unixSocketBind
  refine (socket_meets s k).bind fun sock hk => ?_
  by_cases hbound : sock.bindAddr.isSome
  · rw [if_pos hbound]
    exact h
  · rw [if_neg hbound]
    match stat with
    | some false => exact h
    | some true => exact h
    | none =>
      dsimp only
      by_cases htaken : (s.bound name s.dsUnixSocket).isSome
      · rw [if_pos htaken]
        exact h
      · rw [if_neg htaken]
        exact h.setSocket hk rfl rfl (fun p => h.slots k sock p hk)

theorem listen (h : Counted s) (k : ℕ) (backlog : ℤ) :
    Exec.Meets (fun _ => True) (fun r => Counted r.1) (s.unixSocketListen k backlog) := by
  unfold UnixSockets.unixSocketListen
  refine (socket_meets s k).bind fun sock hk => h.setSocket hk rfl rfl fun p hp => ?_
  cases (List.mem_replicate.mp hp).2

/-- No slot gains a pair when the slots are moved down. -/
theorem mem_of_shift (hshift : sock.shift = .ok sock') :
    sock'.timesOpened = sock.timesOpened ∧ sock'.pair = sock.pair ∧
      ∀ p, some p ∈ sock'.backlog → some p ∈ sock.backlog := by
  unfold UnixSocket.shift at hshift
  split_ifs at hshift
  cases hshift
  refine ⟨rfl, rfl, fun p hp => ?_⟩
  have hcleared : ∀ q, some q ∈ sock.backlog.set 0 none → some q ∈ sock.backlog := by
    intro q hq
    rcases List.mem_or_eq_of_mem_set hq with hq | hq
    · exact hq
    · cases hq
  rcases List.mem_append.mp hp with hp | hp
  · exact hcleared p (List.mem_of_mem_drop (List.mem_of_mem_take hp))
  · exact hcleared p (List.mem_of_mem_drop hp)

theorem accept (h : Counted s) (k : ℕ) (nonblock : Bool) :
    Exec.Meets (fun _ => True) (fun r => Counted r.1) (s.unixSocketAccept k nonblock) := by
  unfold unixSocketAccept
  refine (socket_meets s k).bind fun sock hk => ?_
  have hflag : ∀ flag, Counted (s.setSocket k { sock with acceptWouldBlock := flag }) :=
    fun flag => h.setSocket hk rfl rfl (fun p => h.slots k sock p hk)
  by_cases hpending : sock.connCurr > 0
  · rw [if_pos hpending]
    unfold acceptFirst
    cases hfirst : sock.first with
    | error e => trivial
    | ok p =>
      rw [Exec.ok_bind]
      refine (pair_meets s p).bind fun pair hp => ?_
      by_cases hserver : pair.serverFds ≠ 0
      · rw [if_pos hserver]
        trivial
      rw [if_neg hserver]
      cases hname : sock.bindAddr with
      | none => trivial
      | some name =>
        dsimp only
        cases hshift : sock.shift with
        | error e => trivial
        | ok sock' =>
          obtain ⟨hopened, hpair, hslots⟩ := mem_of_shift hshift
          have hserved : Counted ((s.setPair p { pair with
              serverFds := pair.serverFds + 1, established := true, filename := some name }).openFile (.accept p)) :=
            h.addServer hp rfl rfl
          exact Counts.setSocket hserved hk hopened hpair (fun q hq => hserved.slots k sock q hk (hslots q hq))
  · rw [if_neg hpending]
    by_cases hnonblock : nonblock
    · rw [if_pos hnonblock]
      exact hflag true
    · rw [if_neg hnonblock]
      exact hflag false

theorem slots_push (hpush : sock.push p = .ok sock') :
    sock'.timesOpened = sock.timesOpened ∧ sock'.pair = sock.pair ∧
      ∀ q, some q ∈ sock'.backlog → some q ∈ sock.backlog ∨ q = p := by
  unfold UnixSocket.push at hpush
  split_ifs at hpush
  cases hpush
  refine ⟨rfl, rfl, fun q hq => ?_⟩
  rcases List.mem_or_eq_of_mem_set hq with hq | hq
  · exact .inl hq
  · cases hq
    exact .inr rfl

theorem connect (h : Counted s) (k : ℕ) (name : String) (nonblock : Bool)
    (halone : s.ConnectsAlone name nonblock (.socket k)) :
    Exec.Meets (fun _ => True) (fun r => Counted r.1) (s.unixSocketConnect k name nonblock) := by
  unfold unixSocketConnect
  refine (socket_meets s k).bind fun sock hk => ?_
  by_cases hlistens : sock.connMax ≠ 0
  · rw [if_pos hlistens]
    exact h
  rw [if_neg hlistens]
  by_cases hpaired : sock.pair.isSome
  · rw [if_pos hpaired]
    exact h
  rw [if_neg hpaired]
  cases hbound : s.bound name (s.dsUnixSocket.filter (fun parent => parent ≠ k)) with
  | none => exact h
  | some parent =>
    have hne : parent ≠ k := by simpa using (List.mem_filter.mp (List.mem_of_find?_eq_some hbound)).2
    have hunpaired : sock.pair = none := by simpa using hpaired
    dsimp only
    unfold connectTo
    refine (socket_meets s parent).bind fun psock hparent => ?_
    by_cases hblock : psock.acceptWouldBlock ∧ nonblock
    · rw [if_pos hblock]
      exact h
    rw [if_neg hblock]
    by_cases hmax : psock.connMax = 0
    · rw [if_pos hmax]
      exact h
    rw [if_neg hmax]
    by_cases hnonblock : nonblock
    · rw [if_pos hnonblock]
      trivial
    rw [if_neg hnonblock]
    by_cases hfull : psock.connCurr ≥ psock.connMax
    · rw [if_pos hfull]
      exact h
    rw [if_neg hfull]
    have hreaches : s.reaches k name = some psock := by rw [reaches, hbound]; exact hparent
    have hone := halone sock hk (by simpa using hlistens) hunpaired (by simpa using hnonblock) psock hreaches hmax
      (by omega)
    dsimp only
    cases hpush : psock.push s.nextPair with
    | error e => trivial
    | ok psock' =>
      obtain ⟨hopened, hpair, hslots⟩ := slots_push hpush
      have hnew : Counted ((s.unixSocketAllocatePair ⟨false, 0, none, 1⟩).setSocket k
          { sock with pair := some s.nextPair }) :=
        Counts.newPair (n := 0) h hk hone hunpaired hone rfl rfl rfl rfl (fun dir => by
          change s.opens dir = _
          rw [ite_self, Nat.add_zero])
      have hparent' : ((s.unixSocketAllocatePair ⟨false, 0, none, 1⟩).setSocket k
          { sock with pair := some s.nextPair }).sockets parent = some psock :=
        (Function.update_of_ne hne _ _).trans hparent
      refine Counts.setSocket hnew hparent' hopened hpair fun q hq => ?_
      rcases hslots q hq with hq | rfl
      · exact hnew.slots parent psock q hparent' hq
      · change Function.update s.pairs s.nextPair _ s.nextPair ≠ none
        rw [Function.update_self]
        exact Option.some_ne_none _

theorem socketpair (h : Counted s) (type : ℕ) :
    Exec.Meets (fun _ => True) (fun r => Counted r.1) (s.unixSocketPair type) := by
  unfold unixSocketPair
  by_cases htype : type % 2 = 0
  · rw [if_pos htype]
    exact h
  rw [if_neg htype]
  have hsocket : s.openSocket.sockets s.nextSocket = some ⟨1, false, none, 0, 0, [], none⟩ := Function.update_self _ _ _
  dsimp only
  refine (socket_meets _ _).bind fun sock hk => ?_
  obtain rfl : (⟨1, false, none, 0, 0, [], none⟩ : UnixSocket) = sock := Option.some.inj (hsocket.symm.trans hk)
  exact Counts.newPair (n := 1) h.openSocket hsocket rfl rfl rfl rfl rfl rfl rfl (opens_openFile _ (.accept s.nextPair))

theorem duplicateSocket (h : Counted s) (k : ℕ) :
    Exec.Meets (fun _ => True) Counted (s.unixSocketDuplicate k) := by
  unfold unixSocketDuplicate
  refine (socket_meets s k).bind fun sock hk => ?_
  unfold UnixSockets.addClient
  match hpair : sock.pair with
  | none =>
    exact Counts.addUnpaired h hk hpair rfl rfl rfl (opens_openFile (s.setSocket k _) (.socket k))
  | some p =>
    dsimp only
    cases hp : s.pair p with
    | error e => trivial
    | ok pair =>
      have hp' := pair_meets s p
      rw [hp] at hp'
      exact Counts.addPaired h hk hpair rfl rfl rfl hp' rfl rfl
        (opens_openFile ((s.setPair p _).setSocket k _) (.socket k))

theorem duplicateAccept (h : Counted s) (p : ℕ) :
    Exec.Meets (fun _ => True) Counted (s.unixSocketAcceptDuplicate p) := by
  unfold unixSocketAcceptDuplicate
  exact (pair_meets s p).bind fun pair hp => h.addServer hp rfl rfl

theorem unused (h : Counted s) (hp : s.Unused p) : ∀ k sock, s.sockets k = some sock → some p ∉ sock.backlog := by
  intro k sock hk
  refine hp k ?_ sock hk
  by_contra hge
  rw [h.freshSocket k (by omega)] at hk
  cases hk

theorem closeSocket (h : Counted s) {fd : ℕ} {f : SocketFile} (hfile : s.file fd = some f) (hdir : f.dir = .socket k)
    (hunused : s.ClosesUnused (.socket k)) :
    Exec.Meets (fun _ => True) Counted ((s.removeFile fd).unixSocketClose k) := by
  have hopens := opens_removeFile hfile
  rw [hdir] at hopens
  unfold unixSocketClose
  refine (socket_meets _ k).bind fun sock hk => ?_
  change s.sockets k = some sock at hk
  have hopened := h.opened k sock hk
  unfold dropClient
  match hpair : sock.pair with
  | none =>
    dsimp only
    rw [Exec.ok_bind]
    by_cases hlast : sock.timesOpened - 1 = 0
    · rw [if_pos hlast]
      split_ifs
      · exact Counts.removeUnpaired h hk hpair (by omega) hopens
      · trivial
    · rw [if_neg hlast]
      exact Counts.dropUnpaired h hk hpair rfl hlast rfl rfl hopens
  | some p =>
    obtain ⟨pair, hp, hclient⟩ := h.client k sock p hk hpair
    have hread : (s.removeFile fd).pair p = .ok pair := by
      unfold UnixSockets.pair
      rw [show (s.removeFile fd).pairs p = some pair from hp]
    dsimp only
    rw [hread, Exec.ok_bind, Exec.ok_bind]
    unfold dropDescriptor
    by_cases hfree : pair.serverFds = 0 ∧ pair.clientFds - 1 = 0
    · rw [if_pos hfree, if_pos (by omega)]
      split_ifs
      · exact Counts.freePaired h hk hpair (by omega) hp hfree.1
          (h.unused (hunused sock hk p hpair pair hp (by omega) hfree.1)) hopens
      · trivial
    · rw [if_neg hfree]
      by_cases hlast : sock.timesOpened - 1 = 0
      · rw [if_pos hlast]
        split_ifs
        · exact Counts.removePaired h hk hpair (by omega) hp rfl rfl (by omega) hopens
        · trivial
      · rw [if_neg hlast]
        exact Counts.dropPaired h hk hpair rfl hlast rfl rfl hp rfl rfl hopens

theorem closeAccept (h : Counted s) {fd : ℕ} {f : SocketFile} (hfile : s.file fd = some f) (hdir : f.dir = .accept p)
    (hunused : s.ClosesUnused (.accept p)) :
    Exec.Meets (fun _ => True) Counted ((s.removeFile fd).unixSocketAcceptClose p) := by
  have hopens := opens_removeFile hfile
  rw [hdir] at hopens
  unfold unixSocketAcceptClose
  refine (pair_meets _ p).bind fun pair hp => ?_
  change s.pairs p = some pair at hp
  unfold dropDescriptor
  by_cases hfree : pair.serverFds - 1 = 0 ∧ pair.clientFds = 0
  · rw [if_pos hfree]
    exact Counts.freeServer h hp hfree.2 (by omega) (h.unused (hunused pair hp hfree.2 (by omega))) hopens
  · rw [if_neg hfree]
    exact Counts.dropServer h hp rfl rfl hfree hopens

theorem onSocket (h : Counted s) {fd : ℕ} {f : ℕ → Exec (UnixSockets × SocketReply)}
    (hf : ∀ file k, s.file fd = some file → file.dir = .socket k →
      Exec.Meets (fun _ => True) (fun r => Counted r.1) (f k)) :
    Exec.Meets (fun _ => True) Counted (s.onSocket fd f) := by
  unfold UnixSockets.onSocket
  match hfile : s.file fd with
  | none => exact h
  | some ⟨_, .accept _⟩ => exact h
  | some ⟨_, .socket k⟩ => exact (hf _ k hfile rfl).map fun _ hr => hr

theorem call (h : Counted s) {c : SocketCall} (hsafe : s.PairSafe c) :
    Exec.Meets (fun _ => True) Counted (s.call c) := by
  cases c with
  | socket type =>
    change Counted (s.unixSocketOpen type).1
    unfold unixSocketOpen
    split_ifs
    · exact h
    · exact h.openSocket
  | socketpair type => exact (h.socketpair type).map fun _ hr => hr
  | bind fd name stat => exact h.onSocket fun _ k _ _ => h.bind k name stat
  | listen fd backlog => exact h.onSocket fun _ k _ _ => h.listen k backlog
  | connect fd name nonblock =>
    refine h.onSocket fun file k hfile hdir => h.connect k name nonblock ?_
    rw [← hdir]
    exact hsafe file hfile
  | accept fd nonblock => exact h.onSocket fun _ k _ _ => h.accept k nonblock
  | duplicate fd =>
    change Exec.Meets _ _ (s.duplicate fd)
    unfold duplicate
    match s.file fd with
    | none => exact h
    | some ⟨_, .socket k⟩ => exact h.duplicateSocket k
    | some ⟨_, .accept p⟩ => exact h.duplicateAccept p
  | close fd =>
    change Exec.Meets _ _ (s.close fd)
    unfold close
    match hfile : s.file fd with
    | none => exact h
    | some ⟨_, .socket k⟩ => exact h.closeSocket hfile rfl (hsafe _ hfile)
    | some ⟨_, .accept p⟩ => exact h.closeAccept hfile rfl (hsafe _ hfile)

end Counted

/-- In a run whose connects come on a socket with one descriptor and whose closes leave no pair in a
backlog without one, the pairs are counted and freed as they should be. -/
theorem pairs_counted_of_safe {calls : List SocketCall} (hsafe : Guarded call PairSafe start calls) {s : UnixSockets}
    (h : run call start calls = .ok s) : PairsCounted s := by
  have hrun : Exec.Meets (fun _ => True) Counted (run call start calls) :=
    run_meets_of_guarded (fun _ _ hs hguard => hs.call hguard) Counted.of_start hsafe
  rw [h] at hrun
  exact hrun.pairsCounted

/-- A client whose socket is duplicated after it connected, and both ends closed. -/
def connectThenDuplicate : List SocketCall :=
  [.socket 1, .bind 0 "a" none, .listen 0 2, .socket 1, .connect 1 "a" false, .duplicate 1, .accept 0 false,
    .duplicate 3, .close 1, .close 3, .close 2, .close 4]

theorem connect_then_duplicate_counted :
    ∃ s, run call start connectThenDuplicate = .ok s ∧ PairsCounted s ∧ s.freed = [0] := by
  obtain ⟨s, hs, hfreed⟩ : ∃ s, run call start connectThenDuplicate = .ok s ∧ s.freed = [0] := ⟨_, rfl, by decide +kernel⟩
  exact ⟨s, hs, pairs_counted_of_safe (by decide +kernel) hs, hfreed⟩

/-- A socket with two descriptors connects, and one of them is closed: the pair is freed while the
socket and the backlog still hold it. -/
theorem duplicate_then_connect_dangles :
    ¬ ∀ calls s, run call start calls = .ok s → PairsCounted s := by
  intro h
  obtain ⟨s, hs, sock, hsock, hpair, hnone⟩ :
      ∃ s, run call start [.socket 1, .bind 0 "a" none, .listen 0 2, .socket 1, .duplicate 1, .connect 1 "a" false,
        .close 2] = .ok s ∧ ∃ sock, s.sockets 1 = some sock ∧ sock.pair = some 0 ∧ s.pairs 0 = none :=
    ⟨_, rfl, _, rfl, by decide +kernel, by decide +kernel⟩
  have hlive := (h _ s hs).connections 1 sock 0 hsock hpair
  rw [hnone] at hlive
  cases hlive

end DualFuse.Syscalls.UnixSockets
