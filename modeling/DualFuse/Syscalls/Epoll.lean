import DualFuse.Library.Execution

/-! Epoll watch lists (`syscalls/poll.cpp`). Each epoll keeps a list of watches on open
files and, in its poll instance, a list of items that name the keys the files report
under. A Unix socket reports under its own address until it connects, and then under that
of its pair: of the sockets only this is kept, and how far a connect gets is an input.
Open files and epolls are named by numbers that are never used again. Left out are
waiting, ringing, the locks and duplicates of epoll descriptors. -/

namespace DualFuse.Syscalls

open Library

/-- The address that `reportKey` returns. -/
inductive ReportKey where
  | socket (k : ℕ)
  | pair (p : ℕ)
  | eventFd (e : ℕ)
  deriving DecidableEq, Repr

/-- An open file by its handlers. `other`: the handlers have no `internalPoll`. -/
inductive WatchedDir where
  | unixSocket (k : ℕ)
  | unixAccept (p : ℕ)
  | eventFd (e : ℕ)
  | other
  deriving DecidableEq, Repr

structure EpollEvent where
  events : ℕ
  data : ℕ
  deriving DecidableEq, Repr

structure EpollWatch where
  fd : ℕ
  watchEvents : ℕ
  userlandData : ℕ
  deriving DecidableEq, Repr

structure PollItem where
  key : ReportKey
  epollEvents : ℕ
  deriving DecidableEq, Repr

/-- An epoll with the items of its poll instance. -/
structure Epoll where
  id : ℕ
  firstEpollWatch : List EpollWatch
  items : List PollItem
  deriving DecidableEq, Repr

inductive EpollCtl where
  | add | mod | del
  deriving DecidableEq, Repr

inductive EpollReply where
  | done | ebadf | eperm | enoent
  deriving DecidableEq, Repr

namespace Epoll

/-- `calloc` and `LinkedListPushFrontUnsafe`. -/
def pollItemAdd (epoll : Epoll) (key : ReportKey) (epollEvents : ℕ) : Epoll :=
  { epoll with items := ⟨key, epollEvents⟩ :: epoll.items }

def pollItemLookup (epoll : Epoll) (key : ReportKey) : Option PollItem :=
  epoll.items.find? (fun item => item.key = key)

def pollItemRemove (epoll : Epoll) (key : ReportKey) : Exec Epoll :=
  match epoll.pollItemLookup key with
  | none => .error .assertion
  | some _ => .ok { epoll with items := epoll.items.eraseP (fun item => item.key = key) }

/-- The first watch on the file. -/
def watch (epoll : Epoll) (fd : ℕ) : Option EpollWatch := epoll.firstEpollWatch.find? (fun w => w.fd = fd)

def ctlAdd (epoll : Epoll) (fd : ℕ) (key : ReportKey) (event : EpollEvent) : Epoll :=
  pollItemAdd { epoll with firstEpollWatch := epoll.firstEpollWatch ++ [⟨fd, event.events, event.data⟩] } key event.events

def ctlMod (epoll : Epoll) (fd : ℕ) (key : ReportKey) (event : EpollEvent) : Exec (Epoll × EpollReply) :=
  match epoll.watch fd with
  | none => .ok (epoll, .enoent)
  | some _ => do
    let watches := epoll.firstEpollWatch.modify (epoll.firstEpollWatch.findIdx (fun w => w.fd = fd))
      (fun w => { w with watchEvents := event.events, userlandData := event.data })
    let epoll ← pollItemRemove { epoll with firstEpollWatch := watches } key
    .ok (epoll.pollItemAdd key event.events, .done)

def ctlDel (epoll : Epoll) (fd : ℕ) (key : ReportKey) : Exec (Epoll × EpollReply) :=
  match epoll.watch fd with
  | none => .ok (epoll, .enoent)
  | some _ => do
    let epoll ← epoll.pollItemRemove key
    .ok ({ epoll with firstEpollWatch := epoll.firstEpollWatch.eraseP (fun w => w.fd = fd) }, .done)

/-- The part of `epollCtl` after the tests of the file. -/
def ctl (epoll : Epoll) (op : EpollCtl) (fd : ℕ) (key : ReportKey) (event : EpollEvent) : Exec (Epoll × EpollReply) :=
  match op with
  | .add => .ok (epoll.ctlAdd fd key event, .done)
  | .mod => epoll.ctlMod fd key event
  | .del => epoll.ctlDel fd key

end Epoll

/-- The loop of `epollCloseNotify`: the first epoll that watches the file loses the watch. -/
def epollCloseNotify (fd : ℕ) : List Epoll → List Epoll
  | [] => []
  | epoll :: epolls =>
    if (epoll.watch fd).isSome then
      { epoll with firstEpollWatch := epoll.firstEpollWatch.eraseP (fun w => w.fd = fd) } :: epolls
    else epoll :: epollCloseNotify fd epolls

structure EpollSystem where
  files : ℕ → Option WatchedDir
  nextFile : ℕ
  pairOf : ℕ → Option ℕ
  dsEpoll : List Epoll
  nextEpoll : ℕ

inductive EpollCall where
  | openFile (dir : WatchedDir)
  | epollCreate1
  | epollCtl (epoll : ℕ) (op : EpollCtl) (fd : ℕ) (event : EpollEvent)
  | connect (fd : ℕ) (pair : Option ℕ)
  | close (fd : ℕ)
  | closeEpoll (epoll : ℕ)
  deriving DecidableEq, Repr

namespace EpollSystem

def start : EpollSystem := ⟨fun _ => none, 0, fun _ => none, [], 0⟩

def unixSocketReportKey (s : EpollSystem) (k : ℕ) : ReportKey :=
  match s.pairOf k with
  | some p => .pair p
  | none => .socket k

/-- The key of a file whose handlers have `internalPoll`. -/
def dirKey (s : EpollSystem) : WatchedDir → Option ReportKey
  | .unixSocket k => some (s.unixSocketReportKey k)
  | .unixAccept p => some (.pair p)
  | .eventFd e => some (.eventFd e)
  | .other => none

def reportKey (s : EpollSystem) (fd : ℕ) : Option ReportKey := (s.files fd).bind s.dirKey

theorem reportKey_congr {s s' : EpollSystem} {fd : ℕ} (hfile : s'.files fd = s.files fd)
    (hpair : ∀ k, s.files fd = some (.unixSocket k) → s'.pairOf k = s.pairOf k) : s'.reportKey fd = s.reportKey fd := by
  unfold reportKey
  rw [hfile]
  cases hdir : s.files fd with
  | none => rfl
  | some dir =>
    cases dir with
    | unixSocket k =>
      change some (s'.unixSocketReportKey k) = some (s.unixSocketReportKey k)
      unfold unixSocketReportKey
      rw [hpair k hdir]
    | unixAccept p => rfl
    | eventFd e => rfl
    | other => rfl

def setEpoll (s : EpollSystem) (epoll : Epoll) : EpollSystem :=
  { s with dsEpoll := s.dsEpoll.map (fun e => if e.id = epoll.id then epoll else e) }

def epollCtl (s : EpollSystem) (epoll : Epoll) (op : EpollCtl) (fd : ℕ) (event : EpollEvent) :
    Exec (EpollSystem × EpollReply) :=
  match s.files fd with
  | none => .ok (s, .ebadf)
  | some dir =>
    match s.dirKey dir with
    | none => .ok (s, .eperm)
    | some key => do
      let (epoll, reply) ← epoll.ctl op fd key event
      .ok (s.setEpoll epoll, reply)

/-- `pair`: the pair that `unixSocketConnect` makes, if it gets so far. A socket that has a
pair is refused. -/
def unixSocketConnect (s : EpollSystem) (fd : ℕ) (pair : Option ℕ) : EpollSystem :=
  match s.files fd, pair with
  | some (.unixSocket k), some p =>
    if (s.pairOf k).isSome then s else { s with pairOf := Function.update s.pairOf k (some p) }
  | _, _ => s

def fsCloseGeneric (s : EpollSystem) (fd : ℕ) : EpollSystem :=
  match s.files fd with
  | none => s
  | some _ => { s with files := Function.update s.files fd none, dsEpoll := epollCloseNotify fd s.dsEpoll }

def call (s : EpollSystem) : EpollCall → Exec EpollSystem
  | .openFile dir => .ok { s with files := Function.update s.files s.nextFile (some dir), nextFile := s.nextFile + 1 }
  | .epollCreate1 => .ok { s with dsEpoll := s.dsEpoll ++ [⟨s.nextEpoll, [], []⟩], nextEpoll := s.nextEpoll + 1 }
  | .epollCtl epoll op fd event =>
    match s.dsEpoll.find? (fun e => e.id = epoll) with
    | none => .ok s
    | some epoll => Prod.fst <$> s.epollCtl epoll op fd event
  | .connect fd pair => .ok (s.unixSocketConnect fd pair)
  | .close fd => .ok (s.fsCloseGeneric fd)
  | .closeEpoll epoll => .ok { s with dsEpoll := s.dsEpoll.filter (fun e => e.id ≠ epoll) }

/-- Every watch is on an open file, no two are on the same, and the items have the keys that
the files report under now. -/
structure EpollSound (s : EpollSystem) (epoll : Epoll) : Prop where
  opened : ∀ w ∈ epoll.firstEpollWatch, (s.files w.fd).isSome
  single : (epoll.firstEpollWatch.map EpollWatch.fd).Nodup
  keys : (epoll.items.map (fun item => some item.key)).Perm (epoll.firstEpollWatch.map (fun w => s.reportKey w.fd))

def WatchesSound (s : EpollSystem) : Prop := ∀ epoll ∈ s.dsEpoll, s.EpollSound epoll

/-- Some epoll watches the file. -/
def Watched (s : EpollSystem) (fd : ℕ) : Prop := ∃ epoll ∈ s.dsEpoll, ∃ w ∈ epoll.firstEpollWatch, w.fd = fd

/-- A file is added to an epoll that does not watch it, a watched socket does not connect, and
a watched file is not closed. -/
def WatchSafe (s : EpollSystem) : EpollCall → Prop
  | .epollCtl epoll .add fd _ => ∀ e ∈ s.dsEpoll, e.id = epoll → ∀ w ∈ e.firstEpollWatch, w.fd ≠ fd
  | .connect fd (some _) => ∀ k, s.files fd = some (.unixSocket k) → s.pairOf k = none →
      ∀ epoll ∈ s.dsEpoll, ∀ w ∈ epoll.firstEpollWatch, s.files w.fd ≠ some (.unixSocket k)
  | .close fd => ¬ s.Watched fd
  | _ => True

namespace EpollSound

variable {s s' : EpollSystem} {epoll : Epoll} {fd : ℕ} {key : ReportKey}

/-- An epoll is sound in every state in which its files report under the same keys. -/
theorem of_same_keys (h : s.EpollSound epoll) (hfiles : ∀ w ∈ epoll.firstEpollWatch, s'.files w.fd = s.files w.fd)
    (hkeys : ∀ w ∈ epoll.firstEpollWatch, s'.reportKey w.fd = s.reportKey w.fd) : s'.EpollSound epoll where
  opened := fun w hw => by
    rw [hfiles w hw]
    exact h.opened w hw
  single := h.single
  keys := by
    rw [List.map_congr_left hkeys]
    exact h.keys

theorem watch_iff (epoll : Epoll) (fd : ℕ) : (epoll.watch fd).isSome ↔ ∃ w ∈ epoll.firstEpollWatch, w.fd = fd := by
  simp [Epoll.watch]

/-- The items of a watched file can be found. -/
theorem removable (h : s.EpollSound epoll) (hw : (epoll.watch fd).isSome) (hkey : s.reportKey fd = some key) :
    ∃ item ∈ epoll.items, item.key = key := by
  obtain ⟨w, hmem, rfl⟩ := (watch_iff epoll fd).mp hw
  have hmem : some key ∈ epoll.items.map (fun item => some item.key) := by
    rw [h.keys.mem_iff, ← hkey]
    exact List.mem_map.mpr ⟨w, hmem, rfl⟩
  simpa using hmem

theorem pollItemRemove_eq {e : Epoll} {item : PollItem} (hitem : item ∈ e.items) (hkey : item.key = key) :
    e.pollItemRemove key = .ok { e with items := e.items.eraseP (fun item => item.key = key) } := by
  unfold Epoll.pollItemRemove Epoll.pollItemLookup
  cases hfind : e.items.find? (fun item => item.key = key) with
  | none => exact absurd hkey (by simpa using List.find?_eq_none.mp hfind item hitem)
  | some _ => rfl

/-- Taking out the first element that fits takes out its image. -/
theorem perm_map_eraseP {α β : Type} [DecidableEq β] (g : α → β) (l : List α) {q : α → Bool} {a : α} (ha : a ∈ l)
    (hq : q a) {b : β} (hg : ∀ x ∈ l, q x → g x = b) : (l.map g).Perm (b :: (l.eraseP q).map g) := by
  induction l with
  | nil => cases ha
  | cons x l ih =>
    by_cases hx : q x
    · rw [List.eraseP_cons_of_pos hx, List.map_cons, hg x List.mem_cons_self hx]
    · have ha' : a ∈ l := by
        rcases List.mem_cons.mp ha with rfl | ha
        · exact absurd hq hx
        · exact ha
      rw [List.eraseP_cons_of_neg (by simpa using hx), List.map_cons, List.map_cons]
      exact ((ih ha' fun y hy => hg y (List.mem_cons_of_mem _ hy)).cons (g x)).trans (List.Perm.swap _ _ _)

theorem items_eraseP (epoll : Epoll) {item : PollItem} (hitem : item ∈ epoll.items) (hkey : item.key = key) :
    (epoll.items.map (fun item => some item.key)).Perm
      (some key :: (epoll.items.eraseP (fun item => item.key = key)).map (fun item => some item.key)) :=
  perm_map_eraseP _ epoll.items hitem (by simpa using hkey) (by simp)

theorem ctlAdd (h : s.EpollSound epoll) (hopen : (s.files fd).isSome) (hkey : s.reportKey fd = some key)
    (hnew : ∀ w ∈ epoll.firstEpollWatch, w.fd ≠ fd) (event : EpollEvent) :
    s.EpollSound (epoll.ctlAdd fd key event) where
  opened := fun w hw => by
    rcases List.mem_append.mp hw with hw | hw
    · exact h.opened w hw
    · rw [List.mem_singleton.mp hw]
      exact hopen
  single := by
    change (List.map EpollWatch.fd (epoll.firstEpollWatch ++ [⟨fd, event.events, event.data⟩])).Nodup
    rw [List.map_append]
    refine List.Nodup.append h.single (List.nodup_singleton fd) (List.disjoint_singleton.mpr ?_)
    intro hmem
    obtain ⟨w, hw, hfd⟩ := List.mem_map.mp hmem
    exact hnew w hw hfd
  keys := by
    change (some key :: epoll.items.map (fun item => some item.key)).Perm
      (List.map (fun w : EpollWatch => s.reportKey w.fd) (epoll.firstEpollWatch ++ [⟨fd, event.events, event.data⟩]))
    rw [List.map_append, List.map_singleton, hkey]
    exact (h.keys.cons _).trans (List.perm_append_singleton _ _).symm

theorem map_modify {α β : Type} (l : List α) (i : ℕ) (f : α → α) (g : α → β) (hg : ∀ a, g (f a) = g a) :
    (l.modify i f).map g = l.map g := by
  apply List.ext_getElem?
  intro n
  rw [List.getElem?_map, List.getElem?_modify, List.getElem?_map]
  cases l[n]? with
  | none => rfl
  | some a => by_cases hn : i = n <;> simp [hn, hg]

theorem ctlMod (h : s.EpollSound epoll) (hkey : s.reportKey fd = some key) (event : EpollEvent) :
    ∃ epoll' reply, epoll.ctlMod fd key event = .ok (epoll', reply) ∧ epoll'.id = epoll.id ∧ s.EpollSound epoll' := by
  unfold Epoll.ctlMod
  cases hw : epoll.watch fd with
  | none => exact ⟨epoll, .enoent, rfl, rfl, h⟩
  | some w =>
    obtain ⟨item, hitem, hk⟩ := h.removable (by rw [hw]; rfl) hkey
    dsimp only
    set watches := epoll.firstEpollWatch.modify (epoll.firstEpollWatch.findIdx (fun w => w.fd = fd))
      (fun w => { w with watchEvents := event.events, userlandData := event.data }) with hwatches
    have hfd : watches.map EpollWatch.fd = epoll.firstEpollWatch.map EpollWatch.fd :=
      map_modify _ _ _ _ fun _ => rfl
    have hreport : watches.map (fun w => s.reportKey w.fd) = epoll.firstEpollWatch.map (fun w => s.reportKey w.fd) :=
      map_modify _ _ _ _ fun _ => rfl
    rw [pollItemRemove_eq (e := ⟨epoll.id, watches, epoll.items⟩) hitem hk, Exec.ok_bind]
    refine ⟨_, .done, rfl, rfl, ⟨fun w hw => ?_, ?_, ?_⟩⟩
    · have hmem : w.fd ∈ epoll.firstEpollWatch.map EpollWatch.fd := by
        rw [← hfd]
        exact List.mem_map_of_mem hw
      obtain ⟨w', hw', heq⟩ := List.mem_map.mp hmem
      rw [← heq]
      exact h.opened w' hw'
    · change (watches.map EpollWatch.fd).Nodup
      rw [hfd]
      exact h.single
    · change (some key :: (epoll.items.eraseP (fun item => item.key = key)).map (fun item => some item.key)).Perm
        (watches.map (fun w => s.reportKey w.fd))
      rw [hreport]
      exact (items_eraseP epoll hitem hk).symm.trans h.keys

theorem ctlDel (h : s.EpollSound epoll) (hkey : s.reportKey fd = some key) :
    ∃ epoll' reply, epoll.ctlDel fd key = .ok (epoll', reply) ∧ epoll'.id = epoll.id ∧ s.EpollSound epoll' := by
  unfold Epoll.ctlDel
  cases hw : epoll.watch fd with
  | none => exact ⟨epoll, .enoent, rfl, rfl, h⟩
  | some w =>
    have hsome : (epoll.watch fd).isSome := by rw [hw]; rfl
    obtain ⟨item, hitem, hk⟩ := h.removable hsome hkey
    obtain ⟨w', hw', hfd⟩ := (watch_iff epoll fd).mp hsome
    dsimp only
    rw [pollItemRemove_eq hitem hk, Exec.ok_bind]
    refine ⟨_, .done, rfl, rfl, ⟨fun w hw => h.opened w (List.mem_of_mem_eraseP hw), ?_, ?_⟩⟩
    · exact h.single.sublist (List.eraseP_sublist.map _)
    · have hwatches := perm_map_eraseP (fun w => s.reportKey w.fd) epoll.firstEpollWatch
        (q := fun w => w.fd = fd) hw' (by simpa using hfd) (b := some key) (by
          intro x _ hx
          rw [show x.fd = fd by simpa using hx, hkey])
      exact List.Perm.cons_inv ((items_eraseP epoll hitem hk).symm.trans (h.keys.trans hwatches))

end EpollSound

/-- The watches are sound, and the epolls and open files have numbers of their own. -/
structure Listed (s : EpollSystem) : Prop where
  sound : s.WatchesSound
  distinct : (s.dsEpoll.map Epoll.id).Nodup
  idLt : ∀ epoll ∈ s.dsEpoll, epoll.id < s.nextEpoll
  fresh : ∀ n, s.nextFile ≤ n → s.files n = none

namespace Listed

variable {s : EpollSystem} {epoll epoll' : Epoll} {fd : ℕ}

theorem of_start : Listed start where
  sound := fun _ h => by cases h
  distinct := List.nodup_nil
  idLt := fun _ h => by cases h
  fresh := fun _ _ => rfl

theorem setEpoll (h : Listed s) (hid : epoll'.id = epoll.id) (hmem : epoll ∈ s.dsEpoll)
    (hsound : s.EpollSound epoll') : Listed (s.setEpoll epoll') := by
  have hids : (s.setEpoll epoll').dsEpoll.map Epoll.id = s.dsEpoll.map Epoll.id := by
    unfold EpollSystem.setEpoll
    rw [List.map_map]
    refine List.map_congr_left fun e _ => ?_
    by_cases he : e.id = epoll'.id <;> simp [he]
  have hcases : ∀ e ∈ (s.setEpoll epoll').dsEpoll, e = epoll' ∨ e ∈ s.dsEpoll := by
    intro e he
    obtain ⟨e₀, he₀, rfl⟩ := List.mem_map.mp he
    by_cases heq : e₀.id = epoll'.id
    · exact .inl (if_pos heq)
    · right
      rw [if_neg heq]
      exact he₀
  refine ⟨fun e he => ?_, ?_, fun e he => ?_, h.fresh⟩
  · rcases hcases e he with rfl | he
    · exact hsound.of_same_keys (fun _ _ => rfl) (fun _ _ => rfl)
    · exact (h.sound e he).of_same_keys (fun _ _ => rfl) (fun _ _ => rfl)
  · rw [hids]
    exact h.distinct
  · rcases hcases e he with rfl | he
    · rw [hid]
      exact h.idLt epoll hmem
    · exact h.idLt e he

theorem epollCtl (h : Listed s) (hmem : epoll ∈ s.dsEpoll) (op : EpollCtl) (fd : ℕ) (event : EpollEvent)
    (hnew : op = .add → ∀ w ∈ epoll.firstEpollWatch, w.fd ≠ fd) :
    Exec.Meets (fun _ => False) (fun r => Listed r.1) (s.epollCtl epoll op fd event) := by
  unfold EpollSystem.epollCtl
  cases hfile : s.files fd with
  | none => exact h
  | some dir =>
    dsimp only
    cases hdir : s.dirKey dir with
    | none => exact h
    | some key =>
      have hkey : s.reportKey fd = some key := by rw [reportKey, hfile]; exact hdir
      have hctl : ∃ epoll' reply, epoll.ctl op fd key event = .ok (epoll', reply) ∧ epoll'.id = epoll.id ∧
          s.EpollSound epoll' := by
        cases op with
        | add => exact ⟨_, .done, rfl, rfl, (h.sound epoll hmem).ctlAdd (by rw [hfile]; rfl) hkey (hnew rfl) event⟩
        | mod => exact (h.sound epoll hmem).ctlMod hkey event
        | del => exact (h.sound epoll hmem).ctlDel hkey
      obtain ⟨epoll', reply, hok, hid, hsound⟩ := hctl
      dsimp only
      rw [hok]
      exact h.setEpoll hid hmem hsound

theorem openFile (h : Listed s) (dir : WatchedDir) :
    Listed { s with files := Function.update s.files s.nextFile (some dir), nextFile := s.nextFile + 1 } := by
  refine ⟨fun epoll hepoll => ?_, h.distinct, h.idLt, fun n hn => ?_⟩
  · have hne : ∀ w ∈ epoll.firstEpollWatch, w.fd ≠ s.nextFile := by
      intro w hw heq
      have hopen := (h.sound epoll hepoll).opened w hw
      rw [heq, h.fresh _ le_rfl] at hopen
      cases hopen
    have hfiles : ∀ w ∈ epoll.firstEpollWatch,
        Function.update s.files s.nextFile (some dir) w.fd = s.files w.fd := fun w hw =>
      Function.update_of_ne (hne w hw) _ _
    exact (h.sound epoll hepoll).of_same_keys hfiles fun w hw => reportKey_congr (hfiles w hw) fun _ _ => rfl
  · change s.nextFile + 1 ≤ n at hn
    change Function.update s.files s.nextFile _ n = none
    rw [Function.update_of_ne (by omega)]
    exact h.fresh n (by omega)

theorem epollCreate1 (h : Listed s) :
    Listed { s with dsEpoll := s.dsEpoll ++ [⟨s.nextEpoll, [], []⟩], nextEpoll := s.nextEpoll + 1 } := by
  refine ⟨fun epoll hepoll => ?_, ?_, fun epoll hepoll => ?_, h.fresh⟩
  · rcases List.mem_append.mp hepoll with hepoll | hepoll
    · exact (h.sound epoll hepoll).of_same_keys (fun _ _ => rfl) (fun _ _ => rfl)
    · rw [List.mem_singleton.mp hepoll]
      exact ⟨fun w hw => absurd hw List.not_mem_nil, List.nodup_nil, List.Perm.nil⟩
  · rw [List.map_append]
    refine List.Nodup.append h.distinct (List.nodup_singleton _) (List.disjoint_singleton.mpr fun hmem => ?_)
    obtain ⟨e, he, heq⟩ := List.mem_map.mp hmem
    exact absurd heq (h.idLt e he).ne
  · rcases List.mem_append.mp hepoll with hepoll | hepoll
    · exact (h.idLt epoll hepoll).trans (Nat.lt_succ_self _)
    · rw [List.mem_singleton.mp hepoll]
      exact Nat.lt_succ_self _

theorem connect (h : Listed s) (fd : ℕ) (pair : Option ℕ) (hsafe : s.WatchSafe (.connect fd pair)) :
    Listed (s.unixSocketConnect fd pair) := by
  unfold unixSocketConnect
  split
  · rename_i k p hfile
    by_cases hpair : (s.pairOf k).isSome
    · rw [if_pos hpair]
      exact h
    · rw [if_neg hpair]
      refine ⟨fun epoll hepoll => ?_, h.distinct, h.idLt, h.fresh⟩
      refine (h.sound epoll hepoll).of_same_keys (fun _ _ => rfl) fun w hw => ?_
      refine reportKey_congr rfl fun j hj => Function.update_of_ne ?_ _ _
      rintro rfl
      exact hsafe j hfile (by simpa using hpair) epoll hepoll w hw hj
  · exact h

theorem closeNotify_unwatched {l : List Epoll} (hl : ∀ epoll ∈ l, ∀ w ∈ epoll.firstEpollWatch, w.fd ≠ fd) :
    epollCloseNotify fd l = l := by
  induction l with
  | nil => rfl
  | cons epoll l ih =>
    have hnone : ¬ (epoll.watch fd).isSome := by
      intro hsome
      obtain ⟨w, hw, hfd⟩ := (EpollSound.watch_iff epoll fd).mp hsome
      exact hl epoll List.mem_cons_self w hw hfd
    rw [epollCloseNotify, if_neg hnone, ih fun e he => hl e (List.mem_cons_of_mem _ he)]

theorem close (h : Listed s) (fd : ℕ) (hsafe : ¬ s.Watched fd) : Listed (s.fsCloseGeneric fd) := by
  have hunwatched : ∀ epoll ∈ s.dsEpoll, ∀ w ∈ epoll.firstEpollWatch, w.fd ≠ fd :=
    fun epoll hepoll w hw hfd => hsafe ⟨epoll, hepoll, w, hw, hfd⟩
  unfold fsCloseGeneric
  cases hfile : s.files fd with
  | none => exact h
  | some dir =>
    dsimp only
    rw [closeNotify_unwatched hunwatched]
    refine ⟨fun epoll hepoll => ?_, h.distinct, h.idLt, fun n hn => ?_⟩
    · have hfiles : ∀ w ∈ epoll.firstEpollWatch, Function.update s.files fd none w.fd = s.files w.fd :=
        fun w hw => Function.update_of_ne (hunwatched epoll hepoll w hw) _ _
      exact (h.sound epoll hepoll).of_same_keys hfiles fun w hw => reportKey_congr (hfiles w hw) fun _ _ => rfl
    · change Function.update s.files fd none n = none
      by_cases hn' : n = fd
      · rw [hn', Function.update_self]
      · rw [Function.update_of_ne hn']
        exact h.fresh n hn

/-- A safe call keeps the watches, and none of its assertions fails. -/
theorem call (h : Listed s) {c : EpollCall} (hsafe : s.WatchSafe c) :
    Exec.Meets (fun _ => False) Listed (s.call c) := by
  cases c with
  | openFile dir => exact h.openFile dir
  | epollCreate1 => exact h.epollCreate1
  | epollCtl id op fd event =>
    change Exec.Meets _ _ (match s.dsEpoll.find? (fun e => e.id = id) with
      | none => .ok s
      | some epoll => Prod.fst <$> s.epollCtl epoll op fd event)
    cases hfind : s.dsEpoll.find? (fun e => e.id = id) with
    | none => exact h
    | some epoll =>
      have hmem := List.mem_of_find?_eq_some hfind
      have hid : epoll.id = id := by simpa using List.find?_some hfind
      refine (h.epollCtl hmem op fd event ?_).map fun _ hr => hr
      rintro rfl
      exact hsafe epoll hmem hid
  | connect fd pair => exact h.connect fd pair hsafe
  | close fd => exact h.close fd hsafe
  | closeEpoll id =>
    refine ⟨fun e he => ?_, ?_, fun e he => h.idLt e (List.mem_of_mem_filter he), h.fresh⟩
    · exact (h.sound e (List.mem_of_mem_filter he)).of_same_keys (fun _ _ => rfl) (fun _ _ => rfl)
    · exact h.distinct.sublist (List.filter_sublist.map _)

theorem find_eq (h : Listed s) (hmem : epoll ∈ s.dsEpoll) : s.dsEpoll.find? (fun e => e.id = epoll.id) = some epoll := by
  cases hfind : s.dsEpoll.find? (fun e => e.id = epoll.id) with
  | none => simpa using List.find?_eq_none.mp hfind epoll hmem
  | some e =>
    have hid : e.id = epoll.id := by simpa using List.find?_some hfind
    rw [List.inj_on_of_nodup_map h.distinct (List.mem_of_find?_eq_some hfind) hmem hid]

/-- A watched file has a key. -/
theorem exists_key (h : Listed s) (hmem : epoll ∈ s.dsEpoll) {w : EpollWatch} (hw : w ∈ epoll.firstEpollWatch) :
    ∃ dir key, s.files w.fd = some dir ∧ s.dirKey dir = some key := by
  have hkey : s.reportKey w.fd ∈ epoll.items.map (fun item => some item.key) := by
    rw [(h.sound epoll hmem).keys.mem_iff]
    exact List.mem_map.mpr ⟨w, hw, rfl⟩
  obtain ⟨item, -, hitem⟩ := List.mem_map.mp hkey
  obtain ⟨dir, hdir, hk⟩ := Option.bind_eq_some_iff.mp hitem.symm
  exact ⟨dir, item.key, hdir, hk⟩

theorem new_of_add (h : Listed s) (hmem : epoll ∈ s.dsEpoll) {event : EpollEvent}
    (hmeets : Exec.Meets (fun _ => False) WatchesSound (s.call (.epollCtl epoll.id .add fd event))) :
    ∀ w ∈ epoll.firstEpollWatch, w.fd ≠ fd := by
  rintro w hw rfl
  obtain ⟨dir, key, hfile, hdir⟩ := h.exists_key hmem hw
  change Exec.Meets _ _ (match s.dsEpoll.find? (fun e => e.id = epoll.id) with
    | none => .ok s
    | some epoll => Prod.fst <$> s.epollCtl epoll .add w.fd event) at hmeets
  rw [h.find_eq hmem] at hmeets
  dsimp only at hmeets
  unfold EpollSystem.epollCtl at hmeets
  rw [hfile] at hmeets
  dsimp only at hmeets
  rw [hdir] at hmeets
  have hsound := hmeets (epoll.ctlAdd w.fd key event) (List.mem_map.mpr ⟨epoll, hmem, if_pos rfl⟩)
  have hsingle : ((epoll.firstEpollWatch.map EpollWatch.fd) ++ [w.fd]).Nodup := by
    have hnodup := hsound.single
    change (List.map EpollWatch.fd (epoll.firstEpollWatch ++ [⟨w.fd, event.events, event.data⟩])).Nodup at hnodup
    rwa [List.map_append] at hnodup
  exact List.disjoint_singleton.mp (List.disjoint_of_nodup_append hsingle) (List.mem_map.mpr ⟨w, hw, rfl⟩)

theorem mem_closeNotify {l : List Epoll} (hl : ∃ epoll ∈ l, (epoll.watch fd).isSome) :
    ∃ epoll ∈ l, (epoll.watch fd).isSome ∧
      { epoll with firstEpollWatch := epoll.firstEpollWatch.eraseP (fun w => w.fd = fd) } ∈ epollCloseNotify fd l := by
  induction l with
  | nil => simp at hl
  | cons e l ih =>
    unfold epollCloseNotify
    by_cases he : (e.watch fd).isSome
    · rw [if_pos he]
      exact ⟨e, List.mem_cons_self, he, List.mem_cons_self⟩
    · rw [if_neg he]
      obtain ⟨epoll, hmem, hwatch⟩ := hl
      have hmem' : epoll ∈ l := by
        rcases List.mem_cons.mp hmem with rfl | hmem
        · exact absurd hwatch he
        · exact hmem
      obtain ⟨e', he', hw', hnotify⟩ := ih ⟨epoll, hmem', hwatch⟩
      exact ⟨e', List.mem_cons_of_mem _ he', hw', List.mem_cons_of_mem _ hnotify⟩

/-- Closing a watched file leaves its item behind. -/
theorem unwatched_of_close (h : Listed s) (hsound : (s.fsCloseGeneric fd).WatchesSound) : ¬ s.Watched fd := by
  rintro ⟨epoll, hmem, w, hw, rfl⟩
  obtain ⟨dir, key, hfile, -⟩ := h.exists_key hmem hw
  obtain ⟨e, he, hwatch, hnotify⟩ := mem_closeNotify
    ⟨epoll, hmem, (EpollSound.watch_iff epoll w.fd).mpr ⟨w, hw, rfl⟩⟩
  obtain ⟨w', hw', hfd⟩ := (EpollSound.watch_iff e w.fd).mp hwatch
  unfold fsCloseGeneric at hsound
  rw [hfile] at hsound
  have hafter := (hsound _ hnotify).keys.length_eq
  have hbefore := (h.sound e he).keys.length_eq
  have herase := List.length_eraseP_of_mem (p := fun w : EpollWatch => w.fd = w'.fd) hw' (by simp)
  have hpos := List.length_pos_of_mem hw'
  rw [hfd] at herase
  simp only [List.length_map] at hafter hbefore
  omega

theorem unwatched_of_connect (h : Listed s) {p k : ℕ} (hfile : s.files fd = some (.unixSocket k))
    (hpair : s.pairOf k = none) (hsound : (s.unixSocketConnect fd (some p)).WatchesSound)
    (hmem : epoll ∈ s.dsEpoll) {w : EpollWatch} (hw : w ∈ epoll.firstEpollWatch) :
    s.files w.fd ≠ some (.unixSocket k) := by
  intro hdir
  have hkey : s.reportKey w.fd = some (.socket k) := by
    rw [reportKey, hdir]
    change some (s.unixSocketReportKey k) = _
    rw [unixSocketReportKey, hpair]
  have hitem : some (.socket k) ∈ epoll.items.map (fun item => some item.key) := by
    rw [(h.sound epoll hmem).keys.mem_iff, ← hkey]
    exact List.mem_map.mpr ⟨w, hw, rfl⟩
  unfold unixSocketConnect at hsound
  rw [hfile] at hsound
  dsimp only at hsound
  rw [hpair, if_neg (by simp)] at hsound
  rw [(hsound epoll hmem).keys.mem_iff] at hitem
  obtain ⟨w', -, hw'⟩ := List.mem_map.mp hitem
  obtain ⟨dir, -, hdir'⟩ := Option.bind_eq_some_iff.mp hw'
  cases dir with
  | unixSocket j =>
    unfold dirKey unixSocketReportKey at hdir'
    dsimp only at hdir'
    by_cases hjk : j = k
    · rw [hjk, Function.update_self] at hdir'
      cases hdir'
    · rw [Function.update_of_ne hjk] at hdir'
      cases hj : s.pairOf j <;> rw [hj] at hdir' <;> cases hdir'
      exact hjk rfl
  | unixAccept q => cases hdir'
  | eventFd e => cases hdir'
  | other => cases hdir'

/-- A call that leaves the watches sound was a safe one. -/
theorem watchSafe (h : Listed s) {c : EpollCall}
    (hmeets : Exec.Meets (fun _ => False) WatchesSound (s.call c)) : s.WatchSafe c := by
  cases c with
  | epollCtl id op fd event =>
    cases op with
    | add =>
      rintro epoll hmem rfl
      exact h.new_of_add hmem hmeets
    | mod => trivial
    | del => trivial
  | connect fd pair =>
    cases pair with
    | none => trivial
    | some p =>
      intro k hfile hpair epoll hmem w hw
      exact h.unwatched_of_connect hfile hpair hmeets hmem hw
  | close fd => exact h.unwatched_of_close hmeets
  | openFile dir => trivial
  | epollCreate1 => trivial
  | closeEpoll id => trivial

end Listed

/-- The watches are sound and no assertion fails throughout a run exactly when each file is
added once, and no watched file is closed or connected. -/
theorem watches_sound_iff (calls : List EpollCall) :
    Throughout call (fun _ => False) WatchesSound start calls ↔ Guarded call WatchSafe start calls :=
  throughout_iff_guarded (fun _ h => h.sound) (fun _ _ _ h hsafe => h.call hsafe)
    (fun _ _ _ h hmeets => h.watchSafe hmeets) Listed.of_start

/-- A socket is watched and then connects: the item cannot be found under the new key any more, and taking the
watch back fails an assertion. -/
theorem connect_while_watched :
    ¬ Throughout call (fun _ => False) WatchesSound start
      [.openFile (.unixSocket 0), .epollCreate1, .epollCtl 0 .add 0 ⟨1, 0⟩, .connect 0 (some 0),
        .epollCtl 0 .del 0 ⟨0, 0⟩] := by
  intro h
  have hend := h _ [] (List.append_nil _).symm
  exact hend

end EpollSystem

end DualFuse.Syscalls
