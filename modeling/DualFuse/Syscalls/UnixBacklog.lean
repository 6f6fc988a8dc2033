import DualFuse.Syscalls.UnixSocket

/-! The backlog of a listening socket as a queue: while no descriptor is closed, its first
`connCurr` slots hold the pairs that connected and were not yet accepted, in the order of
their connects, and `accept` returns them in that order. A `listen` on a socket whose
queue is not empty replaces the array and loses them. -/

namespace DualFuse.Syscalls

open Library

/-- `backlog[0..connCurr)`. -/
def UnixSocket.pending (sock : UnixSocket) : List (Option ℕ) := sock.backlog.take sock.connCurr.toNat

/-- The pending pairs are those that connected and were not yet accepted, in order. -/
structure BacklogOrdered (sock : UnixSocket) (connected accepted : List ℕ) : Prop where
  nonneg : 0 ≤ sock.connCurr
  le_connMax : sock.connCurr ≤ sock.connMax
  length : (sock.backlog.length : ℤ) = sock.connMax
  order : connected.map some = accepted.map some ++ sock.pending
  distinct : connected.Nodup

namespace BacklogOrdered

variable {sock : UnixSocket} {connected accepted : List ℕ}

theorem listen (h : BacklogOrdered sock connected accepted) (hempty : sock.connCurr = 0) (backlog : ℤ) :
    BacklogOrdered (sock.unixSocketListen backlog) connected accepted := by
  have horder := h.order
  have hpos := UnixSocket.listenMax_pos backlog
  unfold UnixSocket.unixSocketListen
  refine ⟨h.nonneg, ?_, ?_, ?_, h.distinct⟩
  · change sock.connCurr ≤ UnixSocket.listenMax backlog
    omega
  · rw [List.length_replicate]
    change ((UnixSocket.listenMax backlog).toNat : ℤ) = UnixSocket.listenMax backlog
    omega
  · rw [UnixSocket.pending, hempty] at horder ⊢
    exact horder

/-- A queue whose slots were replaced has lost its pairs. -/
theorem empty_of_listen (h : BacklogOrdered sock connected accepted) {backlog : ℤ}
    (hlisten : BacklogOrdered (sock.unixSocketListen backlog) connected accepted) : sock.connCurr = 0 := by
  by_contra hne
  have hnonneg := h.nonneg
  have hpos := UnixSocket.listenMax_pos backlog
  have hmem : none ∈ (sock.unixSocketListen backlog).pending := by
    change none ∈ (List.replicate (UnixSocket.listenMax backlog).toNat none).take sock.connCurr.toNat
    rw [List.take_replicate, List.mem_replicate]
    exact ⟨by omega, rfl⟩
  have hsome : none ∈ connected.map some := by
    rw [hlisten.order]
    exact List.mem_append_right _ hmem
  simp at hsome

theorem take_succ_set {α : Type} (l : List α) {n : ℕ} (a : α) (h : n < l.length) :
    (l.set n a).take (n + 1) = l.take n ++ [a] := by
  rw [List.take_add_one, List.take_set_of_le (le_refl n), List.getElem?_set_self h]
  rfl

theorem push (h : BacklogOrdered sock connected accepted) (hroom : sock.connCurr < sock.connMax) {p : ℕ}
    (hp : p ∉ connected) :
    ∃ sock', sock.push p = .ok sock' ∧ BacklogOrdered sock' (connected ++ [p]) accepted ∧
      sock'.bindAddr = sock.bindAddr ∧ sock'.pair = sock.pair := by
  have hnonneg := h.nonneg
  have hlength := h.length
  refine ⟨_, if_pos ⟨hnonneg, by omega⟩, ⟨?_, ?_, ?_, ?_, ?_⟩, rfl, rfl⟩
  · change 0 ≤ sock.connCurr + 1
    omega
  · change sock.connCurr + 1 ≤ sock.connMax
    omega
  · rw [List.length_set]
    exact hlength
  · change (connected ++ [p]).map some = _ ++ (sock.backlog.set sock.connCurr.toNat (some p)).take
      (sock.connCurr + 1).toNat
    rw [show (sock.connCurr + 1).toNat = sock.connCurr.toNat + 1 by omega, take_succ_set _ _ (by omega),
      List.map_append, h.order, List.append_assoc]
    rfl
  · exact List.Nodup.append h.distinct (List.nodup_singleton p) (List.disjoint_singleton.mpr hp)

theorem shift (h : BacklogOrdered sock connected accepted) (hpending : 0 < sock.connCurr) :
    ∃ p sock', sock.first = .ok p ∧ sock.shift = .ok sock' ∧ p ∈ connected ∧
      BacklogOrdered sock' connected (accepted ++ [p]) ∧
      sock'.bindAddr = sock.bindAddr ∧ sock'.pair = sock.pair ∧ sock'.connCurr = sock.connCurr - 1 := by
  have hlength := h.length
  have hle := h.le_connMax
  have horder := h.order
  obtain ⟨n, hn⟩ : ∃ n, sock.connCurr.toNat = n + 1 := ⟨sock.connCurr.toNat - 1, by omega⟩
  cases hb : sock.backlog with
  | nil =>
    rw [hb, List.length_nil] at hlength
    omega
  | cons slot rest =>
    rw [UnixSocket.pending, hb, hn, List.take_succ_cons] at horder
    have hslot : slot ∈ connected.map some := by simp [horder]
    obtain ⟨p, hp, rfl⟩ := List.mem_map.mp hslot
    rw [hb, List.length_cons] at hlength
    have hmoved : (sock.connMax - 1).toNat = rest.length := by omega
    have hshift : sock.shift = .ok { sock with
        backlog := rest ++ (none :: rest).drop rest.length, connCurr := sock.connCurr - 1 } := by
      unfold UnixSocket.shift
      rw [if_pos (by rw [hb, List.length_cons]; omega), hb, hmoved]
      simp
    refine ⟨p, _, by rw [UnixSocket.first, hb], hshift, hp, ⟨?_, ?_, ?_, ?_, h.distinct⟩, rfl, rfl, rfl⟩
    · change 0 ≤ sock.connCurr - 1
      omega
    · change sock.connCurr - 1 ≤ sock.connMax
      omega
    · simp only [List.length_append, List.length_drop, List.length_cons]
      omega
    · change _ = _ ++ (rest ++ (none :: rest).drop rest.length).take (sock.connCurr - 1).toNat
      rw [show (sock.connCurr - 1).toNat = n by omega, List.take_append_of_le_length (by omega), horder]
      simp

end BacklogOrdered

namespace UnixSockets

/-- Every queue is in order and its pairs are alive. -/
def BacklogSound (s : UnixSockets) : Prop :=
  ∀ k sock, s.sockets k = some sock →
    BacklogOrdered sock (s.connected k) (s.accepted k) ∧ ∀ p, some p ∈ sock.pending → (s.pairs p).isSome

/-- The socket behind a descriptor. -/
def listener (s : UnixSockets) (fd : ℕ) : Option UnixSocket :=
  match s.file fd with
  | some ⟨_, .socket k⟩ => s.sockets k
  | _ => none

def listensOn (s : UnixSockets) : SocketCall → Option UnixSocket
  | .listen fd _ => s.listener fd
  | _ => none

/-- A `listen` is called on a socket without pending pairs. -/
def ListensEmpty (s : UnixSockets) (c : SocketCall) : Prop := ∀ sock ∈ s.listensOn c, sock.connCurr = 0

instance (s : UnixSockets) (c : SocketCall) : Decidable (ListensEmpty s c) :=
  inferInstanceAs (Decidable (∀ sock ∈ s.listensOn c, _))

/-- The calls of the runs in which no descriptor is closed. -/
def keeps : SocketCall → Bool
  | .close _ => false
  | _ => true

/-- What the queues need of a run that closes nothing. -/
structure Queued (s : UnixSockets) : Prop where
  ordered : ∀ k sock, s.sockets k = some sock → BacklogOrdered sock (s.connected k) (s.accepted k)
  named : ∀ k sock, s.sockets k = some sock → 0 < sock.connCurr → sock.bindAddr.isSome
  alive : ∀ p < s.nextPair, (s.pairs p).isSome
  connectedLt : ∀ k, ∀ p ∈ s.connected k, p < s.nextPair
  pairLt : ∀ k sock p, s.sockets k = some sock → sock.pair = some p → p < s.nextPair
  fileSocket : ∀ f ∈ s.files, ∀ k, f.dir = .socket k → (s.sockets k).isSome
  fileAccept : ∀ f ∈ s.files, ∀ p, f.dir = .accept p → p < s.nextPair
  fresh : ∀ k, s.nextSocket ≤ k → s.sockets k = none ∧ s.connected k = [] ∧ s.accepted k = []

namespace Queued

variable {s : UnixSockets} {k p : ℕ} {sock sock' : UnixSocket}

theorem of_start : Queued start where
  ordered := fun k sock h => by cases h
  named := fun k sock h => by cases h
  alive := fun p h => absurd h (Nat.not_lt_zero p)
  connectedLt := fun k p h => by cases h
  pairLt := fun k sock p h => by cases h
  fileSocket := fun f h => by cases h
  fileAccept := fun f h => by cases h
  fresh := fun k _ => ⟨rfl, rfl, rfl⟩

theorem sound (h : Queued s) : BacklogSound s := by
  intro k sock hk
  refine ⟨h.ordered k sock hk, fun p hp => h.alive p (h.connectedLt k p ?_)⟩
  have hmem : some p ∈ (s.connected k).map some := by
    rw [(h.ordered k sock hk).order]
    exact List.mem_append_right _ hp
  simpa using hmem

/-- A socket and its queue are replaced. -/
theorem setQueue (h : Queued s) (hk : s.sockets k = some sock) {c a : List ℕ} {connected accepted : ℕ → List ℕ}
    (hconnected : connected = Function.update s.connected k c) (haccepted : accepted = Function.update s.accepted k a)
    (hordered : BacklogOrdered sock' c a) (hnamed : 0 < sock'.connCurr → sock'.bindAddr.isSome)
    (hpair : ∀ p, sock'.pair = some p → p < s.nextPair) (hc : ∀ p ∈ c, p < s.nextPair) :
    Queued { s.setSocket k sock' with connected := connected, accepted := accepted } := by
  subst hconnected haccepted
  have hlt : k < s.nextSocket := by
    by_contra hge
    rw [(h.fresh k (by omega)).1] at hk
    cases hk
  refine ⟨?_, ?_, h.alive, ?_, ?_, ?_, h.fileAccept, ?_⟩
  · intro j sock₁ hj
    change Function.update s.sockets k (some sock') j = some sock₁ at hj
    change BacklogOrdered sock₁ (Function.update s.connected k c j) (Function.update s.accepted k a j)
    by_cases hjk : j = k
    · subst hjk
      rw [Function.update_self] at hj ⊢
      cases hj
      rw [Function.update_self]
      exact hordered
    · rw [Function.update_of_ne hjk] at hj ⊢
      rw [Function.update_of_ne hjk]
      exact h.ordered j sock₁ hj
  · intro j sock₁ hj
    change Function.update s.sockets k (some sock') j = some sock₁ at hj
    by_cases hjk : j = k
    · subst hjk
      rw [Function.update_self] at hj
      cases hj
      exact hnamed
    · rw [Function.update_of_ne hjk] at hj
      exact h.named j sock₁ hj
  · intro j
    change ∀ p ∈ Function.update s.connected k c j, p < s.nextPair
    by_cases hjk : j = k
    · subst hjk
      rw [Function.update_self]
      exact hc
    · rw [Function.update_of_ne hjk]
      exact h.connectedLt j
  · intro j sock₁ p hj
    change Function.update s.sockets k (some sock') j = some sock₁ at hj
    by_cases hjk : j = k
    · subst hjk
      rw [Function.update_self] at hj
      cases hj
      exact hpair p
    · rw [Function.update_of_ne hjk] at hj
      exact h.pairLt j sock₁ p hj
  · intro f hf j hdir
    change (Function.update s.sockets k (some sock') j).isSome
    by_cases hjk : j = k
    · subst hjk
      rw [Function.update_self]
      rfl
    · rw [Function.update_of_ne hjk]
      exact h.fileSocket f hf j hdir
  · intro j hj
    change s.nextSocket ≤ j at hj
    have hjk : j ≠ k := by omega
    change Function.update s.sockets k (some sock') j = none ∧ Function.update s.connected k c j = [] ∧
      Function.update s.accepted k a j = []
    rw [Function.update_of_ne hjk, Function.update_of_ne hjk, Function.update_of_ne hjk]
    exact h.fresh j hj

theorem setSocket (h : Queued s) (hk : s.sockets k = some sock)
    (hordered : BacklogOrdered sock' (s.connected k) (s.accepted k))
    (hnamed : 0 < sock'.connCurr → sock'.bindAddr.isSome) (hpair : ∀ p, sock'.pair = some p → p < s.nextPair) :
    Queued (s.setSocket k sock') :=
  h.setQueue hk (Function.update_eq_self k s.connected).symm (Function.update_eq_self k s.accepted).symm hordered
    hnamed hpair (h.connectedLt k)

theorem setPair (h : Queued s) (p : ℕ) (pair : UnixSocketPair) : Queued (s.setPair p pair) := by
  refine ⟨h.ordered, h.named, ?_, h.connectedLt, h.pairLt, h.fileSocket, h.fileAccept, h.fresh⟩
  intro q hq
  change (Function.update s.pairs p (some pair) q).isSome
  by_cases hqp : q = p
  · subst hqp
    rw [Function.update_self]
    rfl
  · rw [Function.update_of_ne hqp]
    exact h.alive q hq

theorem allocatePair (h : Queued s) (pair : UnixSocketPair) : Queued (s.unixSocketAllocatePair pair) := by
  refine ⟨h.ordered, h.named, ?_, fun j q hq => (h.connectedLt j q hq).trans (Nat.lt_succ_self _),
    fun j sock q hj hq => (h.pairLt j sock q hj hq).trans (Nat.lt_succ_self _), h.fileSocket,
    fun f hf q hq => (h.fileAccept f hf q hq).trans (Nat.lt_succ_self _), h.fresh⟩
  intro q hq
  change q < s.nextPair + 1 at hq
  change (Function.update s.pairs s.nextPair (some pair) q).isSome
  by_cases hqp : q = s.nextPair
  · subst hqp
    rw [Function.update_self]
    rfl
  · rw [Function.update_of_ne hqp]
    exact h.alive q (by omega)

theorem openFile (h : Queued s) (dir : SocketDir) (hsocket : ∀ k, dir = .socket k → (s.sockets k).isSome)
    (haccept : ∀ p, dir = .accept p → p < s.nextPair) : Queued (s.openFile dir) := by
  refine ⟨h.ordered, h.named, h.alive, h.connectedLt, h.pairLt, ?_, ?_, h.fresh⟩
  · intro f hf k hk
    rcases List.mem_cons.mp hf with rfl | hf
    · exact hsocket k hk
    · exact h.fileSocket f hf k hk
  · intro f hf p hp
    rcases List.mem_cons.mp hf with rfl | hf
    · exact haccept p hp
    · exact h.fileAccept f hf p hp

theorem openSocket (h : Queued s) : Queued s.openSocket := by
  have hfresh := h.fresh s.nextSocket le_rfl
  have hnew : BacklogOrdered ⟨1, false, none, 0, 0, [], none⟩ (s.connected s.nextSocket) (s.accepted s.nextSocket) := by
    rw [hfresh.2.1, hfresh.2.2]
    exact ⟨le_rfl, le_rfl, rfl, rfl, List.nodup_nil⟩
  have hother : ∀ j sock, s.sockets j = some sock → j ≠ s.nextSocket := by
    rintro j sock hj rfl
    rw [hfresh.1] at hj
    cases hj
  refine openFile (s := { s with
    dsUnixSocket := s.dsUnixSocket ++ [s.nextSocket]
    sockets := Function.update s.sockets s.nextSocket (some ⟨1, false, none, 0, 0, [], none⟩)
    nextSocket := s.nextSocket + 1 }) ⟨?_, ?_, h.alive, h.connectedLt, ?_, ?_, h.fileAccept, ?_⟩ _ ?_ ?_
  · intro j sock hj
    change Function.update s.sockets s.nextSocket _ j = some sock at hj
    by_cases hjk : j = s.nextSocket
    · subst hjk
      rw [Function.update_self] at hj
      cases hj
      exact hnew
    · rw [Function.update_of_ne hjk] at hj
      exact h.ordered j sock hj
  · intro j sock hj
    change Function.update s.sockets s.nextSocket _ j = some sock at hj
    by_cases hjk : j = s.nextSocket
    · subst hjk
      rw [Function.update_self] at hj
      cases hj
      exact fun hpos => absurd hpos (lt_irrefl _)
    · rw [Function.update_of_ne hjk] at hj
      exact h.named j sock hj
  · intro j sock q hj
    change Function.update s.sockets s.nextSocket _ j = some sock at hj
    by_cases hjk : j = s.nextSocket
    · subst hjk
      rw [Function.update_self] at hj
      cases hj
      exact fun hq => by cases hq
    · rw [Function.update_of_ne hjk] at hj
      exact h.pairLt j sock q hj
  · intro f hf j hdir
    change (Function.update s.sockets s.nextSocket _ j).isSome
    obtain ⟨sock, hj⟩ := Option.isSome_iff_exists.mp (h.fileSocket f hf j hdir)
    rw [Function.update_of_ne (hother j sock hj), hj]
    rfl
  · intro j hj
    change s.nextSocket + 1 ≤ j at hj
    change Function.update s.sockets s.nextSocket _ j = none ∧ _
    rw [Function.update_of_ne (by omega)]
    exact h.fresh j (by omega)
  · rintro j hj
    cases hj
    change (Function.update s.sockets s.nextSocket _ s.nextSocket).isSome
    rw [Function.update_self]
    rfl
  · intro q hq
    cases hq

theorem socket_eq (hk : s.sockets k = some sock) : s.socket k = .ok sock := by
  rw [UnixSockets.socket, hk]

theorem pair_ok (h : Queued s) (hp : p < s.nextPair) : ∃ pair, s.pair p = .ok pair := by
  obtain ⟨pair, hpair⟩ := Option.isSome_iff_exists.mp (h.alive p hp)
  exact ⟨pair, by rw [UnixSockets.pair, hpair]⟩

theorem connected_fresh (h : Queued s) (j : ℕ) : s.nextPair ∉ s.connected j :=
  fun hmem => lt_irrefl _ (h.connectedLt j _ hmem)

theorem bind (h : Queued s) (hk : s.sockets k = some sock) (name : String) (stat : Option Bool) :
    Exec.Meets (fun e => e = .assertion) (fun r => Queued r.1) (s.unixSocketBind k name stat) := by
  unfold unixSocketBind
  rw [socket_eq hk, Exec.ok_bind]
  by_cases hbound : sock.bindAddr.isSome
  · rw [if_pos hbound]
    exact h
  · rw [if_neg hbound]
    match stat with
    | some false => exact h
    | some true => exact h
    | none =>
      dsimp only
      by_cases htaken : (s.bound name s.dsUnixSocket).isSome
      · rw [if_pos htaken]
        exact h
      · rw [if_neg htaken]
        have hord := h.ordered k sock hk
        exact h.setSocket hk ⟨hord.nonneg, hord.le_connMax, hord.length, hord.order, hord.distinct⟩
          (fun _ => rfl) (fun q => h.pairLt k sock q hk)

theorem listen (h : Queued s) (hk : s.sockets k = some sock) (hempty : sock.connCurr = 0) (backlog : ℤ) :
    Exec.Meets (fun e => e = .assertion) (fun r => Queued r.1) (s.unixSocketListen k backlog) := by
  unfold UnixSockets.unixSocketListen
  rw [socket_eq hk, Exec.ok_bind]
  exact h.setSocket hk ((h.ordered k sock hk).listen hempty backlog) (h.named k sock hk)
    (fun q => h.pairLt k sock q hk)

theorem accept (h : Queued s) (hk : s.sockets k = some sock) (nonblock : Bool) :
    Exec.Meets (fun e => e = .assertion) (fun r => Queued r.1) (s.unixSocketAccept k nonblock) := by
  have hord := h.ordered k sock hk
  have hflag : ∀ flag, Queued (s.setSocket k { sock with acceptWouldBlock := flag }) := fun flag =>
    h.setSocket hk ⟨hord.nonneg, hord.le_connMax, hord.length, hord.order, hord.distinct⟩ (h.named k sock hk)
      (fun q => h.pairLt k sock q hk)
  unfold unixSocketAccept
  rw [socket_eq hk, Exec.ok_bind]
  by_cases hpending : sock.connCurr > 0
  · rw [if_pos hpending]
    obtain ⟨p, sock', hfirst, hshift, hp, hnext, hbind, hpair, hcurr⟩ := hord.shift hpending
    have hlt := h.connectedLt k p hp
    obtain ⟨pair, hlive⟩ := h.pair_ok hlt
    obtain ⟨name, hname⟩ := Option.isSome_iff_exists.mp (h.named k sock hk hpending)
    unfold acceptFirst
    rw [hfirst, Exec.ok_bind, hlive, Exec.ok_bind]
    by_cases hserver : pair.serverFds ≠ 0
    · rw [if_pos hserver]
      rfl
    · rw [if_neg hserver, hname]
      dsimp only
      rw [hshift, Exec.ok_bind]
      have hopen := (h.setPair p { pair with
        serverFds := pair.serverFds + 1, established := true, filename := some name }).openFile (.accept p)
        (fun k hk => by cases hk) (fun q hq => by cases hq; exact hlt)
      exact hopen.setQueue (k := k) hk (Function.update_eq_self k s.connected).symm rfl hnext
        (by rw [hbind, hname]; exact fun _ => rfl) (fun q hq => h.pairLt k sock q hk (hpair ▸ hq)) (h.connectedLt k)
  · rw [if_neg hpending]
    by_cases hnonblock : nonblock
    · rw [if_pos hnonblock]
      exact hflag true
    · rw [if_neg hnonblock]
      exact hflag false

theorem of_bound {name : String} {l : List ℕ} (hbound : s.bound name l = some k) :
    k ∈ l ∧ ∃ sock, s.sockets k = some sock ∧ sock.bindAddr = some name := by
  refine ⟨List.mem_of_find?_eq_some hbound, ?_⟩
  have hname := List.find?_some hbound
  simpa [Option.bind_eq_some_iff] using hname

theorem connect (h : Queued s) (hk : s.sockets k = some sock) (name : String) (nonblock : Bool) :
    Exec.Meets (fun e => e = .assertion) (fun r => Queued r.1) (s.unixSocketConnect k name nonblock) := by
  unfold unixSocketConnect
  rw [socket_eq hk, Exec.ok_bind]
  by_cases hlistens : sock.connMax ≠ 0
  · rw [if_pos hlistens]
    exact h
  rw [if_neg hlistens]
  by_cases hpaired : sock.pair.isSome
  · rw [if_pos hpaired]
    exact h
  rw [if_neg hpaired]
  cases hbound : s.bound name (s.dsUnixSocket.filter (fun parent => parent ≠ k)) with
  | none => exact h
  | some parent =>
    obtain ⟨hmem, psock, hparent, hname⟩ := of_bound hbound
    have hne : parent ≠ k := by simpa using (List.mem_filter.mp hmem).2
    dsimp only
    unfold connectTo
    rw [socket_eq hparent, Exec.ok_bind]
    by_cases hblock : psock.acceptWouldBlock ∧ nonblock
    · rw [if_pos hblock]
      exact h
    rw [if_neg hblock]
    by_cases hmax : psock.connMax = 0
    · rw [if_pos hmax]
      exact h
    rw [if_neg hmax]
    by_cases hnonblock : nonblock
    · rw [if_pos hnonblock]
      rfl
    rw [if_neg hnonblock]
    by_cases hfull : psock.connCurr ≥ psock.connMax
    · rw [if_pos hfull]
      exact h
    rw [if_neg hfull]
    obtain ⟨psock', hpush, hord', hbind, hpair⟩ :=
      (h.ordered parent psock hparent).push (by omega) (h.connected_fresh parent)
    have hord := h.ordered k sock hk
    dsimp only
    rw [hpush, Exec.ok_bind]
    have hclient : Queued ((s.unixSocketAllocatePair ⟨false, 0, none, 1⟩).setSocket k
        { sock with pair := some s.nextPair }) :=
      (h.allocatePair ⟨false, 0, none, 1⟩).setSocket hk
        ⟨hord.nonneg, hord.le_connMax, hord.length, hord.order, hord.distinct⟩ (h.named k sock hk)
        (fun q hq => by cases hq; exact Nat.lt_succ_self _)
    have hparent' : ((s.unixSocketAllocatePair ⟨false, 0, none, 1⟩).setSocket k
        { sock with pair := some s.nextPair }).sockets parent = some psock :=
      (Function.update_of_ne hne _ _).trans hparent
    refine hclient.setQueue hparent' rfl (Function.update_eq_self parent s.accepted).symm hord'
      (by rw [hbind, hname]; exact fun _ => rfl)
      (fun q hq => (h.pairLt parent psock q hparent (hpair ▸ hq)).trans (Nat.lt_succ_self _)) ?_
    intro q hq
    rcases List.mem_append.mp hq with hq | hq
    · exact (h.connectedLt parent q hq).trans (Nat.lt_succ_self _)
    · rw [List.mem_singleton.mp hq]
      exact Nat.lt_succ_self _

theorem socketpair (h : Queued s) (type : ℕ) :
    Exec.Meets (fun e => e = .assertion) (fun r => Queued r.1) (s.unixSocketPair type) := by
  unfold unixSocketPair
  by_cases htype : type % 2 = 0
  · rw [if_pos htype]
    exact h
  rw [if_neg htype]
  have hnew : (s.openSocket.unixSocketAllocatePair ⟨false, 1, none, 1⟩).sockets s.nextSocket =
      some ⟨1, false, none, 0, 0, [], none⟩ := Function.update_self _ _ _
  have halloc := h.openSocket.allocatePair ⟨false, 1, none, 1⟩
  have hord := halloc.ordered _ _ hnew
  dsimp only
  rw [socket_eq hnew, Exec.ok_bind]
  have hset : Queued ((s.openSocket.unixSocketAllocatePair ⟨false, 1, none, 1⟩).setSocket s.nextSocket
      ⟨1, false, none, 0, 0, [], some s.nextPair⟩) :=
    halloc.setSocket hnew ⟨hord.nonneg, hord.le_connMax, hord.length, hord.order, hord.distinct⟩
      (fun hpos => absurd hpos (lt_irrefl _)) (fun q hq => by cases hq; exact Nat.lt_succ_self _)
  exact hset.openFile (.accept s.nextPair) (fun j hj => by cases hj) (fun q hq => by cases hq; exact Nat.lt_succ_self _)

/-- Counting one more client touches no queue. -/
theorem addClient (h : Queued s) (hk : s.sockets k = some sock) :
    Exec.Meets (fun e => e = .assertion) (fun t => Queued t ∧ t.sockets k = some sock ∧
      t.connected = s.connected ∧ t.accepted = s.accepted) (s.addClient sock) := by
  unfold UnixSockets.addClient
  cases hpair : sock.pair with
  | none => exact ⟨h, hk, rfl, rfl⟩
  | some p =>
    obtain ⟨pair, hlive⟩ := h.pair_ok (h.pairLt k sock p hk hpair)
    dsimp only
    rw [hlive]
    exact ⟨h.setPair p { pair with clientFds := pair.clientFds + 1 }, hk, rfl, rfl⟩

theorem duplicateSocket (h : Queued s) (hk : s.sockets k = some sock) :
    Exec.Meets (fun e => e = .assertion) Queued (s.unixSocketDuplicate k) := by
  have hord := h.ordered k sock hk
  unfold unixSocketDuplicate
  rw [socket_eq hk, Exec.ok_bind]
  refine (h.addClient hk).bind fun t ht => ?_
  obtain ⟨ht, hk', hc, ha⟩ := ht
  have hset : Queued (t.setSocket k { sock with timesOpened := sock.timesOpened + 1 }) := by
    refine ht.setSocket hk' ?_ (ht.named k sock hk') (fun q => ht.pairLt k sock q hk')
    rw [hc, ha]
    exact ⟨hord.nonneg, hord.le_connMax, hord.length, hord.order, hord.distinct⟩
  refine hset.openFile (.socket k) (fun j hj => ?_) (fun q hq => by cases hq)
  cases hj
  exact Option.isSome_iff_exists.mpr ⟨_, Function.update_self _ _ _⟩

theorem duplicateAccept (h : Queued s) (hp : p < s.nextPair) :
    Exec.Meets (fun e => e = .assertion) Queued (s.unixSocketAcceptDuplicate p) := by
  obtain ⟨pair, hlive⟩ := h.pair_ok hp
  unfold unixSocketAcceptDuplicate
  rw [hlive, Exec.ok_bind]
  exact (h.setPair p { pair with serverFds := pair.serverFds + 1 }).openFile (.accept p)
    (fun j hj => by cases hj) (fun q hq => by cases hq; exact hp)

theorem onSocket (h : Queued s) {fd : ℕ} {f : ℕ → Exec (UnixSockets × SocketReply)}
    (hf : ∀ k sock, s.sockets k = some sock → s.listener fd = some sock →
      Exec.Meets (fun e => e = .assertion) (fun r => Queued r.1) (f k)) :
    Exec.Meets (fun e => e = .assertion) Queued (s.onSocket fd f) := by
  unfold UnixSockets.onSocket
  cases hfile : s.file fd with
  | none => exact h
  | some file =>
    obtain ⟨id, dir⟩ := file
    cases dir with
    | accept p => exact h
    | socket k =>
      obtain ⟨sock, hk⟩ := Option.isSome_iff_exists.mp (h.fileSocket _ (List.mem_of_find?_eq_some hfile) k rfl)
      exact (hf k sock hk (by rw [listener, hfile]; exact hk)).map fun _ hr => hr

/-- A call that closes nothing and listens on an empty queue only keeps the queues. -/
theorem call (h : Queued s) {c : SocketCall} (hkeeps : keeps c) (hlisten : ListensEmpty s c) :
    Exec.Meets (fun e => e = .assertion) Queued (s.call c) := by
  cases c with
  | socket type =>
    change Queued (s.unixSocketOpen type).1
    unfold unixSocketOpen
    split_ifs
    · exact h
    · exact h.openSocket
  | socketpair type => exact (h.socketpair type).map fun _ hr => hr
  | bind fd name stat => exact h.onSocket fun k sock hk _ => h.bind hk name stat
  | listen fd backlog => exact h.onSocket fun k sock hk hfd => h.listen hk (hlisten sock hfd) backlog
  | connect fd name nonblock => exact h.onSocket fun k sock hk _ => h.connect hk name nonblock
  | accept fd nonblock => exact h.onSocket fun k sock hk _ => h.accept hk nonblock
  | duplicate fd =>
    change Exec.Meets _ _ (s.duplicate fd)
    unfold duplicate
    cases hfile : s.file fd with
    | none => exact h
    | some file =>
      obtain ⟨id, dir⟩ := file
      have hmem := List.mem_of_find?_eq_some hfile
      cases dir with
      | socket k =>
        obtain ⟨sock, hk⟩ := Option.isSome_iff_exists.mp (h.fileSocket _ hmem k rfl)
        exact h.duplicateSocket hk
      | accept p => exact h.duplicateAccept (h.fileAccept _ hmem p rfl)
  | close fd => cases hkeeps

/-- A call after which the queues are sound listened on an empty queue only. -/
theorem listensEmpty (h : Queued s) {c : SocketCall}
    (hmeets : Exec.Meets (fun e => e = .assertion) BacklogSound (s.call c)) : ListensEmpty s c := by
  cases c with
  | listen fd backlog =>
    intro sock hsock
    change s.listener fd = some sock at hsock
    unfold listener at hsock
    cases hfile : s.file fd with
    | none =>
      rw [hfile] at hsock
      cases hsock
    | some file =>
      obtain ⟨id, dir⟩ := file
      rw [hfile] at hsock
      cases dir with
      | accept p => cases hsock
      | socket k =>
        change Exec.Meets _ _ (s.onSocket fd (fun k => s.unixSocketListen k backlog)) at hmeets
        unfold UnixSockets.onSocket unixSocketListen at hmeets
        rw [hfile] at hmeets
        dsimp only at hmeets
        rw [socket_eq hsock] at hmeets
        have hk := hmeets k (sock.unixSocketListen backlog) (Function.update_self _ _ _)
        exact (h.ordered k sock hsock).empty_of_listen hk.1
  | _ =>
    intro sock hsock
    cases hsock

end Queued

/-- While no descriptor is closed, the queues stay sound exactly when each `listen` comes on a
socket without pending pairs. -/
theorem backlog_sound_iff (calls : List SocketCall) (hkeeps : ∀ c ∈ calls, keeps c) :
    Throughout call (fun e => e = .assertion) BacklogSound start calls ↔ Guarded call ListensEmpty start calls :=
  throughout_iff_guarded (fun _ h => h.sound) (fun _ c hc h hlisten => h.call (hkeeps c hc) hlisten)
    (fun _ _ _ h hmeets => h.listensEmpty hmeets) Queued.of_start

/-- A server on file 0 with two clients on files 1 and 2. -/
def twoClients : List SocketCall :=
  [.socket 1, .bind 0 "a" none, .listen 0 0, .listen 0 2, .socket 1, .socket 1, .connect 1 "a" false,
    .connect 2 "a" false, .accept 0 false, .accept 0 false]

theorem two_clients_accepted : Throughout call (fun e => e = .assertion) BacklogSound start twoClients :=
  (backlog_sound_iff twoClients (by decide)).mpr (by decide +kernel)

/-- A client connects and the server listens again: the pair is lost, and the queue still counts it. -/
theorem listen_again_loses :
    ¬ Throughout call (fun e => e = .assertion) BacklogSound start
      [.socket 1, .bind 0 "a" none, .listen 0 2, .socket 1, .connect 1 "a" false, .listen 0 2] := by
  intro h
  have hend := h _ [] (List.append_nil _).symm
  obtain ⟨s, hs, sock, hsock, hpending⟩ :
      ∃ s, run call start [.socket 1, .bind 0 "a" none, .listen 0 2, .socket 1, .connect 1 "a" false, .listen 0 2] =
        .ok s ∧ ∃ sock, s.sockets 0 = some sock ∧ none ∈ sock.pending := by
    refine ⟨_, rfl, _, rfl, ?_⟩
    decide +kernel
  rw [hs] at hend
  have hmem : none ∈ (s.connected 0).map some := by
    rw [(hend 0 sock hsock).1.order]
    exact List.mem_append_right _ hpending
  simp at hmem

end UnixSockets

end DualFuse.Syscalls
