import DualFuse.Filesystems.FailedCalls

/-! The ends of pipes (`pipe_open`, `pipe_duplicate` and `pipe_close_end` of `syscalls/pipe.cpp`)
under the calls of `filesystems/vfs/vfs_controller.cpp` that reach them. A descriptor is an entry
of a table, its file either one of a filesystem or an end with a `PipeSpecific` of its own. The
`PipeInfo` records are named by the order of their allocations and count how often they were
given back. What the filesystem answers to an open is an input of the call. -/

namespace DualFuse.Syscalls.PipeEnds

open Library Utility Filesystems

structure PipeSpecific where
  write : Bool
  info : ℕ
  deriving DecidableEq, Repr

structure PipeInfo where
  writeFds : ℤ
  readFds : ℤ
  frees : ℕ
  deriving DecidableEq, Repr

/-- The handlers and `dir` of an `OpenFile`. -/
inductive Node where
  | file
  | pipe (spec : PipeSpecific)
  deriving DecidableEq, Repr

/-- A descriptor of the table `files`. -/
structure Descriptor where
  files : ℕ
  id : ℕ
  node : Node
  deriving DecidableEq, Repr

structure State where
  descriptors : List Descriptor
  infos : List PipeInfo
  deriving DecidableEq, Repr

/-! ### The handlers -/

namespace PipeInfo

/-- `pipe_open`. -/
def opened : PipeInfo := ⟨1, 1, 0⟩

/-- One end more or less. -/
def add (pipe : PipeInfo) (write : Bool) (n : ℤ) : PipeInfo :=
  if write then { pipe with writeFds := wrapInt (pipe.writeFds + n) }
  else { pipe with readFds := wrapInt (pipe.readFds + n) }

def free (pipe : PipeInfo) : PipeInfo := { pipe with frees := pipe.frees + 1 }

end PipeInfo

/-- A record that was not given back. -/
def info (infos : List PipeInfo) (i : ℕ) : Exec PipeInfo :=
  match infos[i]? with
  | some pipe => if pipe.frees = 0 then .ok pipe else .error .fault
  | none => .error .fault

def pipeDuplicate (infos : List PipeInfo) (spec : PipeSpecific) : Exec (List PipeInfo) := do
  let pipe ← info infos spec.info
  .ok (infos.set spec.info (pipe.add spec.write 1))

def pipeCloseEnd (infos : List PipeInfo) (spec : PipeSpecific) : Exec (List PipeInfo) := do
  let pipe ← info infos spec.info
  let pipe := pipe.add spec.write (-1)
  .ok (infos.set spec.info (if pipe.readFds = 0 ∧ pipe.writeFds = 0 then pipe.free else pipe))

/-! ### The tables -/

def Descriptor.key (d : Descriptor) : ℕ × ℕ := (d.files, d.id)

def Descriptor.setNode (d : Descriptor) (files id : ℕ) (node : Node) : Descriptor :=
  if d.key = (files, id) then { d with node := node } else d

namespace State

def fsUserGetNode (s : State) (files fd : ℕ) : Option Descriptor :=
  s.descriptors.find? fun d => d.key = (files, fd)

def fsIdFind (s : State) (files : ℕ) : Exec ℕ :=
  match (List.range fdLimit).find? fun i => s.fsUserGetNode files i = none with
  | some id => .ok id
  | none => .error .assertion

def fsRegisterNode (s : State) (d : Descriptor) : Exec State :=
  if s.fsUserGetNode d.files d.id = none then .ok { s with descriptors := d :: s.descriptors } else .error .assertion

/-- A null pointer, for which no mount point stands, is read. -/
def fsUserOpen (s : State) (files : ℕ) : OpenAnswer → Exec (Option ℕ × State)
  | .noMountPoint => do
    let _ ← s.fsIdFind files
    .error .fault
  | .opened _ => do
    let id ← s.fsIdFind files
    let s ← s.fsRegisterNode ⟨files, id, .file⟩
    .ok (some id, s)
  | .failed _ _ => do
    let _ ← s.fsIdFind files
    .ok (none, s)
  | .symlink _ resolved => do
    let _ ← s.fsIdFind files
    s.fsUserOpen files resolved

/-- The file is copied, then the handler counts the copy. -/
def fsUserDuplicateNode (s : State) (original : Descriptor) (files id : ℕ) : Exec State := do
  let s ← s.fsRegisterNode ⟨files, id, original.node⟩
  match original.node with
  | .file => .ok s
  | .pipe spec => do
    let infos ← pipeDuplicate s.infos spec
    .ok { s with infos := infos }

def fsCloseGeneric (s : State) (d : Descriptor) : Exec State := do
  let s := { s with descriptors := s.descriptors.filter fun e => e.key ≠ d.key }
  match d.node with
  | .file => .ok s
  | .pipe spec => do
    let infos ← pipeCloseEnd s.infos spec
    .ok { s with infos := infos }

/-! ### The calls -/

/-- The handlers and `dir` of a file are replaced. -/
def setNode (s : State) (files id : ℕ) (node : Node) : State :=
  { s with descriptors := s.descriptors.map (·.setNode files id node) }

/-- No descriptors stand for `-1`. -/
def pipeOpen (s : State) (files : ℕ) (forRead forWrite : OpenAnswer) : Exec (Option (ℕ × ℕ) × State) := do
  let (readFd, s) ← s.fsUserOpen files forRead
  let (writeFd, s) ← s.fsUserOpen files forWrite
  match readFd, writeFd with
  | some readFd, some writeFd =>
    match s.fsUserGetNode files readFd, s.fsUserGetNode files writeFd with
    | some _, some _ =>
      let s := { s with infos := s.infos ++ [PipeInfo.opened] }
      let i := s.infos.length - 1
      .ok (some (readFd, writeFd), (s.setNode files readFd (.pipe ⟨false, i⟩)).setNode files writeFd (.pipe ⟨true, i⟩))
    | _, _ => .ok (none, s)
  | _, _ => .ok (none, s)

def syscallDup (s : State) (files fd : ℕ) : Exec State :=
  match s.fsUserGetNode files fd with
  | none => .ok s
  | some file => do
    let id ← s.fsIdFind files
    s.fsUserDuplicateNode file files id

/-- The descriptor that is replaced is closed first. One beyond the bitmap is a fault. -/
def syscallDup2 (s : State) (files oldFd newFd : ℕ) : Exec State :=
  match s.fsUserGetNode files oldFd with
  | none => .ok s
  | some realFile =>
    if oldFd = newFd then .ok s
    else
      match s.fsUserGetNode files newFd with
      | none => if newFd < fdLimit then s.fsUserDuplicateNode realFile files newFd else .error .fault
      | some browse => do
        let s ← s.fsCloseGeneric browse
        s.fsUserDuplicateNode realFile files newFd

/-- One entry of `task_files_copy`. -/
def copyEntry (source target : ℕ) (s : State) (id : ℕ) : Exec State :=
  match s.fsUserGetNode source id with
  | none => .ok s
  | some d => s.fsUserDuplicateNode d target id

/-- The files of a fork, in the order of the tree. -/
def taskFilesCopy (s : State) (source target : ℕ) : Exec State :=
  (List.range fdLimit).foldlM (copyEntry source target) s

def fsUserClose (s : State) (files fd : ℕ) : Exec State :=
  match s.fsUserGetNode files fd with
  | none => .ok s
  | some d => s.fsCloseGeneric d

end State

/-- What the tasks do, one call at a time. -/
inductive Call where
  | pipeOpen (files : ℕ) (forRead forWrite : OpenAnswer)
  | userOpen (files : ℕ) (answer : OpenAnswer)
  | dup (files fd : ℕ)
  | dup2 (files oldFd newFd : ℕ)
  | fork (source target : ℕ)
  | close (files fd : ℕ)

def Call.run (s : State) : Call → Exec State
  | .pipeOpen files forRead forWrite => do
    let (_, s) ← s.pipeOpen files forRead forWrite
    .ok s
  | .userOpen files answer => do
    let (_, s) ← s.fsUserOpen files answer
    .ok s
  | .dup files fd => s.syscallDup files fd
  | .dup2 files oldFd newFd => s.syscallDup2 files oldFd newFd
  | .fork source target => s.taskFilesCopy source target
  | .close files fd => s.fsUserClose files fd

/-! ### What holds of the counts -/

/-- The open descriptors of one end of a pipe. -/
def State.ends (s : State) (write : Bool) (i : ℕ) : ℕ := s.descriptors.countP fun d => d.node = .pipe ⟨write, i⟩

/-- The counts are those of the open descriptors, and the record was given back once, and only where
both are zero. -/
structure State.Counted (s : State) : Prop where
  readFds : ∀ i pipe, s.infos[i]? = some pipe → pipe.readFds = (s.ends false i : ℤ)
  writeFds : ∀ i pipe, s.infos[i]? = some pipe → pipe.writeFds = (s.ends true i : ℤ)
  frees : ∀ i pipe, s.infos[i]? = some pipe → pipe.frees = if s.ends false i = 0 ∧ s.ends true i = 0 then 1 else 0
  used : ∀ d ∈ s.descriptors, ∀ spec, d.node = .pipe spec → ∃ pipe, s.infos[spec.info]? = some pipe ∧ pipe.frees = 0

/-- The states of the runs in which fewer than `2 ^ 31 - 1024` descriptors are open before each call. -/
inductive Reached : State → Prop
  | boot : Reached ⟨[], []⟩
  | call {s s' : State} (c : Call) (h : Reached s) (hroom : s.descriptors.length + fdLimit < 2 ^ 31)
      (hrun : c.run s = .ok s') : Reached s'

/-! ### The records -/

def PipeInfo.fds (pipe : PipeInfo) (write : Bool) : ℤ := if write then pipe.writeFds else pipe.readFds

/-- The records count these users. -/
structure Holds (infos : List PipeInfo) (users : Bool → ℕ → ℕ) : Prop where
  fds : ∀ i pipe, infos[i]? = some pipe → ∀ b, pipe.fds b = (users b i : ℤ)
  frees : ∀ i pipe, infos[i]? = some pipe → pipe.frees = if users false i = 0 ∧ users true i = 0 then 1 else 0
  used : ∀ b i, users b i ≠ 0 → i < infos.length

/-- One user of an end of a pipe. -/
def one (write : Bool) (info : ℕ) (b : Bool) (i : ℕ) : ℕ := if b = write ∧ i = info then 1 else 0

variable {infos infos' : List PipeInfo} {users users' : Bool → ℕ → ℕ} {pipe : PipeInfo} {spec : PipeSpecific} {b : Bool}
  {i : ℕ} {s s' : State} {d : Descriptor} {ds : List Descriptor} {files id : ℕ}

theorem holds_nil : Holds [] fun _ _ => 0 := by
  constructor <;> simp

theorem Holds.congr (h : Holds infos users) (heq : ∀ b i, users' b i = users b i) : Holds infos users' := by
  rwa [show users' = users from funext fun b => funext fun i => heq b i]

/-- A record that has users was not given back. -/
theorem Holds.info_eq (h : Holds infos users) (hi : users b i ≠ 0) :
    ∃ pipe, infos[i]? = some pipe ∧ pipe.frees = 0 ∧ info infos i = .ok pipe := by
  obtain ⟨pipe, hpipe⟩ : ∃ pipe, infos[i]? = some pipe := ⟨_, List.getElem?_eq_getElem (h.used b i hi)⟩
  have hfrees : pipe.frees = 0 := by
    rw [h.frees i pipe hpipe, if_neg]
    rintro ⟨hread, hwrite⟩
    cases b with
    | false => exact hi hread
    | true => exact hi hwrite
  exact ⟨pipe, hpipe, hfrees, by rw [info, hpipe]; exact if_pos hfrees⟩

theorem PipeInfo.fds_add (pipe : PipeInfo) (write b : Bool) (n : ℤ) :
    (pipe.add write n).fds b = if b = write then wrapInt (pipe.fds b + n) else pipe.fds b := by
  cases write <;> cases b <;> rfl

theorem PipeInfo.frees_add (pipe : PipeInfo) (write : Bool) (n : ℤ) : (pipe.add write n).frees = pipe.frees := by
  cases write <;> rfl

/-- A new record has one user at each end. -/
theorem Holds.opened (h : Holds infos users) :
    Holds (infos ++ [.opened]) fun b i => users b i + (one false infos.length b i + one true infos.length b i) := by
  have hnew (b : Bool) : users b infos.length = 0 := by
    by_contra hne
    exact absurd (h.used b _ hne) (lt_irrefl _)
  constructor
  · intro i pipe hpipe b
    rcases Nat.lt_or_ge i infos.length with hi | hi
    · rw [List.getElem?_append_left hi] at hpipe
      have hne := hi.ne
      rw [h.fds i pipe hpipe b]
      simp [one, hne]
    · rw [List.getElem?_append_right hi, List.getElem?_singleton] at hpipe
      split_ifs at hpipe with hzero
      cases hpipe
      obtain rfl : i = infos.length := by omega
      cases b <;> simp [one, hnew, PipeInfo.opened, PipeInfo.fds]
  · intro i pipe hpipe
    rcases Nat.lt_or_ge i infos.length with hi | hi
    · rw [List.getElem?_append_left hi] at hpipe
      have hne := hi.ne
      rw [h.frees i pipe hpipe]
      simp [one, hne]
    · rw [List.getElem?_append_right hi, List.getElem?_singleton] at hpipe
      split_ifs at hpipe with hzero
      cases hpipe
      obtain rfl : i = infos.length := by omega
      simp [one, PipeInfo.opened]
  · intro b i hi
    rw [List.length_append, List.length_singleton]
    by_cases hlen : i = infos.length
    · omega
    · have hold : users b i ≠ 0 := by simpa [one, hlen] using hi
      have := h.used b i hold
      omega

/-- A record is replaced, and its users with it. -/
theorem Holds.set (h : Holds infos users) {r : ℕ} (hr : r < infos.length) (hfds : ∀ b, pipe.fds b = (users' b r : ℤ))
    (hfrees : pipe.frees = if users' false r = 0 ∧ users' true r = 0 then 1 else 0)
    (hother : ∀ b i, i ≠ r → users' b i = users b i) : Holds (infos.set r pipe) users' := by
  constructor
  · intro i old hold b
    rw [List.getElem?_set] at hold
    split_ifs at hold with heq
    · cases hold
      rw [← heq]
      exact hfds b
    · rw [hother b i (Ne.symm heq)]
      exact h.fds i old hold b
  · intro i old hold
    rw [List.getElem?_set] at hold
    split_ifs at hold with heq
    · cases hold
      rw [← heq]
      exact hfrees
    · rw [hother false i (Ne.symm heq), hother true i (Ne.symm heq)]
      exact h.frees i old hold
  · intro b i hi
    rw [List.length_set]
    by_cases heq : i = r
    · rwa [heq]
    · rw [hother b i heq] at hi
      exact h.used b i hi

theorem one_of_ne {write : Bool} {r : ℕ} (h : i ≠ r) : one write r b i = 0 := if_neg fun heq => h heq.2

theorem one_self (write b : Bool) (r : ℕ) : one write r b r = if b = write then 1 else 0 := by simp [one]

/-- One more user of an end that has one. -/
theorem Holds.pipeDuplicate (h : Holds infos users) (hused : users spec.write spec.info ≠ 0)
    (hroom : users spec.write spec.info + 1 < 2 ^ 31) :
    ∃ infos', pipeDuplicate infos spec = .ok infos' ∧
      Holds infos' fun b i => users b i + one spec.write spec.info b i := by
  obtain ⟨pipe, hpipe, hfrees, hinfo⟩ := h.info_eq hused
  refine ⟨_, by rw [PipeEnds.pipeDuplicate, hinfo, Exec.ok_bind], h.set (h.used _ _ hused) (fun b => ?_) ?_ ?_⟩
  · rw [PipeInfo.fds_add, h.fds _ pipe hpipe b, one_self]
    split_ifs with hb
    · rw [hb]
      exact wrapInt_natCast (by omega)
    · rfl
  · rw [PipeInfo.frees_add, hfrees, if_neg]
    rw [one_self, one_self]
    cases hwrite : spec.write with
    | false => simp
    | true => simp
  · intro b i hi
    rw [one_of_ne hi, Nat.add_zero]

/-- One user less, and the last one of both ends gives the record back. -/
theorem Holds.pipeCloseEnd (h : Holds infos users) (hused : users spec.write spec.info ≠ 0)
    (hroom : users spec.write spec.info < 2 ^ 31) :
    ∃ infos', pipeCloseEnd infos spec = .ok infos' ∧
      Holds infos' fun b i => users b i - one spec.write spec.info b i := by
  obtain ⟨pipe, hpipe, hfrees, hinfo⟩ := h.info_eq hused
  have hfds (b : Bool) : (pipe.add spec.write (-1)).fds b =
      ((users b spec.info - one spec.write spec.info b spec.info : ℕ) : ℤ) := by
    rw [PipeInfo.fds_add, h.fds _ pipe hpipe b, one_self]
    split_ifs with hb
    · rw [hb, show (users spec.write spec.info : ℤ) + -1 = ((users spec.write spec.info - 1 : ℕ) : ℤ) by omega]
      exact wrapInt_natCast (by omega)
    · rw [Nat.sub_zero]
  have hread := hfds false
  have hwrite := hfds true
  refine ⟨_, by rw [PipeEnds.pipeCloseEnd, hinfo, Exec.ok_bind], h.set (h.used _ _ hused) (fun b => ?_) ?_ ?_⟩
  · rw [← hfds b]
    split_ifs
    · cases b <;> rfl
    · rfl
  · change (pipe.add spec.write (-1)).readFds = _ at hread
    change (pipe.add spec.write (-1)).writeFds = _ at hwrite
    rw [hread, hwrite]
    split_ifs with hzero hnat hnat
    · rw [PipeInfo.free, PipeInfo.frees_add, hfrees]
    · exact absurd (by exact_mod_cast hzero) hnat
    · exact absurd (by exact_mod_cast hnat) hzero
    · rw [PipeInfo.frees_add, hfrees]
  · intro b i hi
    rw [one_of_ne hi, Nat.sub_zero]

/-! ### The descriptors -/

/-- The ends that a file adds. -/
def Node.ends (node : Node) (b : Bool) (i : ℕ) : ℕ := if node = .pipe ⟨b, i⟩ then 1 else 0

theorem Node.ends_file (b : Bool) (i : ℕ) : Node.file.ends b i = 0 := if_neg (by simp)

theorem Node.ends_pipe (spec : PipeSpecific) (b : Bool) (i : ℕ) :
    (Node.pipe spec).ends b i = one spec.write spec.info b i := by
  obtain ⟨write, info⟩ := spec
  refine if_congr ?_ rfl rfl
  rw [Node.pipe.injEq, PipeSpecific.mk.injEq]
  exact and_congr eq_comm eq_comm

namespace State

theorem ends_cons (d : Descriptor) (ds : List Descriptor) (infos : List PipeInfo) (b : Bool) (i : ℕ) :
    ends ⟨d :: ds, infos⟩ b i = ends ⟨ds, infos⟩ b i + d.node.ends b i := by
  unfold ends Node.ends
  rw [List.countP_cons]
  simp only [decide_eq_true_eq]

/-- The records count the descriptors, which have keys of their own. -/
structure Sound (s : State) : Prop where
  holds : Holds s.infos s.ends
  keys : (s.descriptors.map Descriptor.key).Nodup

theorem Sound.counted (h : s.Sound) : s.Counted where
  readFds i pipe hpipe := h.holds.fds i pipe hpipe false
  writeFds i pipe hpipe := h.holds.fds i pipe hpipe true
  frees := h.holds.frees
  used := by
    intro d hd spec hspec
    have hpos : s.ends spec.write spec.info ≠ 0 := by
      unfold ends
      rw [Nat.ne_zero_iff_zero_lt, List.countP_pos_iff]
      exact ⟨d, hd, decide_eq_true hspec⟩
    obtain ⟨pipe, hpipe, hfrees, -⟩ := h.holds.info_eq hpos
    exact ⟨pipe, hpipe, hfrees⟩

theorem ends_le (s : State) (b : Bool) (i : ℕ) : s.ends b i ≤ s.descriptors.length := List.countP_le_length

theorem ends_ne_zero (hd : d ∈ s.descriptors) (hnode : d.node = .pipe spec) : s.ends spec.write spec.info ≠ 0 := by
  unfold ends
  rw [Nat.ne_zero_iff_zero_lt, List.countP_pos_iff]
  exact ⟨d, hd, decide_eq_true hnode⟩

theorem fsUserGetNode_eq_none : s.fsUserGetNode files id = none ↔ (files, id) ∉ s.descriptors.map Descriptor.key := by
  unfold fsUserGetNode
  rw [List.find?_eq_none, List.mem_map]
  simp

theorem mem_of_fsUserGetNode (h : s.fsUserGetNode files id = some d) : d ∈ s.descriptors ∧ d.key = (files, id) :=
  ⟨List.mem_of_find?_eq_some h, by simpa using List.find?_some h⟩

theorem fsRegisterNode_ok_iff :
    s.fsRegisterNode d = .ok s' ↔ d.key ∉ s.descriptors.map Descriptor.key ∧ s' = ⟨d :: s.descriptors, s.infos⟩ := by
  rw [← show s.fsUserGetNode d.files d.id = none ↔ d.key ∉ s.descriptors.map Descriptor.key from fsUserGetNode_eq_none]
  unfold fsRegisterNode
  split_ifs with h
  · exact ⟨fun heq => ⟨h, (Except.ok.inj heq).symm⟩, fun heq => by rw [heq.2]⟩
  · constructor
    · intro heq
      cases heq
    · exact fun heq => absurd heq.1 h

/-- An open adds a file, or changes nothing where it fails. -/
theorem fsUserOpen_cases {answer : OpenAnswer} {r : Option ℕ} (h : s.fsUserOpen files answer = .ok (r, s')) :
    (answer.Fails ∧ r = none ∧ s' = s) ∨
      ∃ id, ¬answer.Fails ∧ r = some id ∧ (files, id) ∉ s.descriptors.map Descriptor.key ∧
        s' = ⟨⟨files, id, .file⟩ :: s.descriptors, s.infos⟩ := by
  induction answer with
  | noMountPoint =>
    obtain ⟨_, -, h⟩ := Exec.bind_ok_iff.mp h
    cases h
  | opened mountPoint =>
    obtain ⟨id, -, h⟩ := Exec.bind_ok_iff.mp h
    obtain ⟨t, ht, h⟩ := Exec.bind_ok_iff.mp h
    obtain ⟨hkey, rfl⟩ := fsRegisterNode_ok_iff.mp ht
    cases h
    exact Or.inr ⟨id, False.elim, rfl, hkey, rfl⟩
  | failed mountPoint ret =>
    obtain ⟨_, -, h⟩ := Exec.bind_ok_iff.mp h
    cases h
    exact Or.inl ⟨trivial, rfl, rfl⟩
  | symlink mountPoint resolved ih =>
    obtain ⟨_, -, h⟩ := Exec.bind_ok_iff.mp h
    exact ih h

theorem Sound.register (h : s.Sound) (hkey : (files, id) ∉ s.descriptors.map Descriptor.key) :
    Sound ⟨⟨files, id, .file⟩ :: s.descriptors, s.infos⟩ where
  holds := h.holds.congr fun b i => by rw [ends_cons, Node.ends_file, Nat.add_zero]
  keys := List.nodup_cons.mpr ⟨hkey, h.keys⟩

/-- A duplicate counts as one more user. -/
theorem Sound.fsUserDuplicateNode (h : s.Sound) (hd : d ∈ s.descriptors) (hroom : s.descriptors.length + 1 < 2 ^ 31)
    (hrun : s.fsUserDuplicateNode d files id = .ok s') :
    s'.Sound ∧ s'.descriptors.length = s.descriptors.length + 1 := by
  obtain ⟨t, ht, hrun⟩ := Exec.bind_ok_iff.mp hrun
  obtain ⟨hkey, rfl⟩ := fsRegisterNode_ok_iff.mp ht
  have hkeys : ((⟨files, id, d.node⟩ :: s.descriptors).map Descriptor.key).Nodup := List.nodup_cons.mpr ⟨hkey, h.keys⟩
  cases hnode : d.node with
  | file =>
    rw [hnode] at hrun hkey
    cases hrun
    exact ⟨h.register hkey, rfl⟩
  | pipe spec =>
    rw [hnode] at hrun hkeys
    have hle := s.ends_le spec.write spec.info
    obtain ⟨infos, hinfos, hholds⟩ := h.holds.pipeDuplicate (ends_ne_zero hd hnode) (by omega)
    dsimp only at hrun
    rw [hinfos] at hrun
    cases hrun
    refine ⟨⟨hholds.congr fun b i => ?_, hkeys⟩, rfl⟩
    exact (ends_cons _ _ _ b i).trans (congrArg _ (Node.ends_pipe spec b i))

/-- A descriptor and the others. -/
theorem perm_filter (hkeys : (ds.map Descriptor.key).Nodup) (hd : d ∈ ds) :
    ds.Perm (d :: ds.filter fun e => e.key ≠ d.key) := by
  induction ds with
  | nil => cases hd
  | cons e ds ih =>
    obtain ⟨he, hds⟩ := List.nodup_cons.mp hkeys
    rcases List.mem_cons.mp hd with rfl | hd
    · have hall : ds.filter (fun e => e.key ≠ d.key) = ds :=
        List.filter_eq_self.mpr fun e' he' => decide_eq_true fun heq => he (heq ▸ List.mem_map_of_mem he')
      rw [List.filter_cons_of_neg (by simp), hall]
    · have hne : e.key ≠ d.key := fun heq => he (heq ▸ List.mem_map_of_mem hd)
      rw [List.filter_cons_of_pos (by simpa using hne)]
      exact ((ih hds hd).cons e).trans (List.Perm.swap _ _ _)

/-- A close counts as one user less. -/
theorem Sound.fsCloseGeneric (h : s.Sound) (hd : d ∈ s.descriptors) (hroom : s.descriptors.length < 2 ^ 31)
    (hrun : s.fsCloseGeneric d = .ok s') :
    s'.Sound ∧ s'.descriptors.length + 1 = s.descriptors.length ∧
      ∀ e ∈ s.descriptors, e.key ≠ d.key → e ∈ s'.descriptors := by
  have hperm := perm_filter h.keys hd
  have hkeys : ((s.descriptors.filter fun e => e.key ≠ d.key).map Descriptor.key).Nodup :=
    h.keys.sublist (List.filter_sublist.map _)
  have hlength := hperm.length_eq
  rw [List.length_cons] at hlength
  have hends (b : Bool) (i : ℕ) : s.ends b i =
      ends ⟨s.descriptors.filter fun e => e.key ≠ d.key, s.infos⟩ b i + d.node.ends b i := by
    rw [← ends_cons]
    exact hperm.countP_eq _
  have hkept (e : Descriptor) (he : e ∈ s.descriptors) (hne : e.key ≠ d.key) :
      e ∈ s.descriptors.filter fun e => e.key ≠ d.key := List.mem_filter.mpr ⟨he, decide_eq_true hne⟩
  cases hnode : d.node with
  | file =>
    rw [State.fsCloseGeneric, hnode] at hrun
    cases hrun
    refine ⟨⟨h.holds.congr fun b i => ?_, hkeys⟩, hlength.symm, hkept⟩
    rw [hends b i, hnode, Node.ends_file, Nat.add_zero]
  | pipe spec =>
    have hle := s.ends_le spec.write spec.info
    obtain ⟨infos, hinfos, hholds⟩ := h.holds.pipeCloseEnd (ends_ne_zero hd hnode) (by omega)
    rw [State.fsCloseGeneric, hnode] at hrun
    dsimp only at hrun
    rw [hinfos] at hrun
    cases hrun
    refine ⟨⟨hholds.congr fun b i => ?_, hkeys⟩, hlength.symm, hkept⟩
    have := hends b i
    rw [hnode, Node.ends_pipe] at this
    exact (Nat.sub_eq_of_eq_add this).symm

/-! ### The calls -/

theorem setNode_of_not_mem {node : Node} (h : (files, id) ∉ ds.map Descriptor.key) :
    ds.map (·.setNode files id node) = ds := by
  refine (List.map_congr_left fun d hd => if_neg fun heq => h ?_).trans (List.map_id _)
  exact heq ▸ List.mem_map_of_mem hd

/-- The two files that were opened become the ends of a new pipe. -/
theorem setNode_opened {readFd writeFd : ℕ} {infos : List PipeInfo} {forRead forWrite : Node}
    (hread : (files, readFd) ∉ ds.map Descriptor.key)
    (hwrite : (files, writeFd) ∉ (files, readFd) :: ds.map Descriptor.key) :
    (setNode ⟨⟨files, writeFd, .file⟩ :: ⟨files, readFd, .file⟩ :: ds, infos⟩ files readFd forRead).setNode files writeFd
      forWrite = ⟨⟨files, writeFd, forWrite⟩ :: ⟨files, readFd, forRead⟩ :: ds, infos⟩ := by
  obtain ⟨hne, hwrite⟩ := not_or.mp (List.mem_cons.not.mp hwrite)
  have hself (id : ℕ) (old node : Node) :
      (⟨files, id, old⟩ : Descriptor).setNode files id node = ⟨files, id, node⟩ := if_pos rfl
  have hother (id id' : ℕ) (old node : Node) (h : (files, id) ≠ (files, id')) :
      (⟨files, id, old⟩ : Descriptor).setNode files id' node = ⟨files, id, old⟩ := if_neg h
  unfold setNode
  dsimp only
  simp only [List.map_cons, setNode_of_not_mem hread, setNode_of_not_mem hwrite, hself, hother writeFd readFd _ _ hne,
    hother readFd writeFd _ _ (Ne.symm hne)]

/-- A pipe is opened with both its descriptors, or the call fails with what the opens left. -/
theorem pipeOpen_cases {forRead forWrite : OpenAnswer} {r : Option (ℕ × ℕ)}
    (hrun : s.pipeOpen files forRead forWrite = .ok (r, s')) :
    (∃ readFd writeFd, r = some (readFd, writeFd) ∧ (files, readFd) ∉ s.descriptors.map Descriptor.key ∧
        (files, writeFd) ∉ (files, readFd) :: s.descriptors.map Descriptor.key ∧
        s' = ⟨⟨files, writeFd, .pipe ⟨true, s.infos.length⟩⟩ :: ⟨files, readFd, .pipe ⟨false, s.infos.length⟩⟩ ::
          s.descriptors, s.infos ++ [.opened]⟩) ∨
      (forRead.Fails ∧ forWrite.Fails ∧ s' = s) ∨
      (¬(forRead.Fails ↔ forWrite.Fails) ∧ ∃ id, (files, id) ∉ s.descriptors.map Descriptor.key ∧
        s' = ⟨⟨files, id, .file⟩ :: s.descriptors, s.infos⟩) := by
  obtain ⟨⟨readFd, t⟩, hread, hrest⟩ := Exec.bind_ok_iff.mp hrun
  obtain ⟨⟨writeFd, u⟩, hwrite, hend⟩ := Exec.bind_ok_iff.mp hrest
  clear hrun hrest
  rcases fsUserOpen_cases hread with ⟨hfails, rfl, rfl⟩ | ⟨readId, hopens, rfl, hreadKey, rfl⟩
  · rcases fsUserOpen_cases hwrite with ⟨hfails', rfl, rfl⟩ | ⟨id, hopens, rfl, hkey, rfl⟩
    · cases hend
      exact Or.inr (Or.inl ⟨hfails, hfails', rfl⟩)
    · cases hend
      exact Or.inr (Or.inr ⟨fun heq => hopens (heq.mp hfails), id, hkey, rfl⟩)
  · rcases fsUserOpen_cases hwrite with ⟨hfails, rfl, rfl⟩ | ⟨writeId, -, rfl, hwriteKey, rfl⟩
    · cases hend
      exact Or.inr (Or.inr ⟨fun heq => hopens (heq.mpr hfails), readId, hreadKey, rfl⟩)
    · refine Or.inl ⟨readId, writeId, ?_⟩
      have hfirst : fsUserGetNode ⟨⟨files, writeId, .file⟩ :: ⟨files, readId, .file⟩ :: s.descriptors, s.infos⟩
          files readId ≠ none := by
        rw [Ne, fsUserGetNode_eq_none, not_not]
        exact List.mem_cons_of_mem _ List.mem_cons_self
      have hsecond : fsUserGetNode ⟨⟨files, writeId, .file⟩ :: ⟨files, readId, .file⟩ :: s.descriptors, s.infos⟩
          files writeId ≠ none := by
        rw [Ne, fsUserGetNode_eq_none, not_not]
        exact List.mem_cons_self
      obtain ⟨d, hd⟩ := Option.ne_none_iff_exists'.mp hfirst
      obtain ⟨e, he⟩ := Option.ne_none_iff_exists'.mp hsecond
      dsimp only at hend
      rw [hd, he] at hend
      dsimp only at hend
      rw [setNode_opened hreadKey hwriteKey, List.length_append, List.length_singleton, Nat.add_sub_cancel] at hend
      cases hend
      exact ⟨rfl, hreadKey, hwriteKey, rfl⟩

theorem Sound.pipeOpen {forRead forWrite : OpenAnswer} {r : Option (ℕ × ℕ)} (h : s.Sound)
    (hrun : s.pipeOpen files forRead forWrite = .ok (r, s')) : s'.Sound := by
  rcases pipeOpen_cases hrun with ⟨readFd, writeFd, -, hread, hwrite, rfl⟩ | ⟨-, -, rfl⟩ | ⟨-, id, hkey, rfl⟩
  · refine ⟨h.holds.opened.congr fun b i => ?_, List.nodup_cons.mpr ⟨hwrite, List.nodup_cons.mpr ⟨hread, h.keys⟩⟩⟩
    rw [ends_cons, ends_cons, Node.ends_pipe, Node.ends_pipe, Nat.add_assoc]
    rfl
  · exact h
  · exact h.register hkey

theorem Sound.syscallDup2 {oldFd newFd : ℕ} (h : s.Sound) (hroom : s.descriptors.length + 1 < 2 ^ 31)
    (hrun : s.syscallDup2 files oldFd newFd = .ok s') : s'.Sound := by
  unfold State.syscallDup2 at hrun
  cases hold : s.fsUserGetNode files oldFd with
  | none =>
    rw [hold] at hrun
    cases hrun
    exact h
  | some realFile =>
    obtain ⟨hreal, hrealKey⟩ := mem_of_fsUserGetNode hold
    rw [hold] at hrun
    dsimp only at hrun
    by_cases hsame : oldFd = newFd
    · rw [if_pos hsame] at hrun
      cases hrun
      exact h
    rw [if_neg hsame] at hrun
    cases hnew : s.fsUserGetNode files newFd with
    | none =>
      rw [hnew] at hrun
      dsimp only at hrun
      split_ifs at hrun
      exact (h.fsUserDuplicateNode hreal hroom hrun).1
    | some browse =>
      obtain ⟨hbrowse, hbrowseKey⟩ := mem_of_fsUserGetNode hnew
      rw [hnew] at hrun
      obtain ⟨t, ht, hrun⟩ := Exec.bind_ok_iff.mp hrun
      obtain ⟨hsound, hlength, hkept⟩ := h.fsCloseGeneric hbrowse (by omega) ht
      have hne : realFile.key ≠ browse.key := by
        rw [hrealKey, hbrowseKey]
        exact fun heq => hsame (Prod.ext_iff.mp heq).2
      exact (hsound.fsUserDuplicateNode (hkept realFile hreal hne) (by omega) hrun).1

/-- A fork duplicates the files one by one. -/
theorem Sound.copyEntries {source target : ℕ} (ids : List ℕ) (h : s.Sound)
    (hroom : s.descriptors.length + ids.length < 2 ^ 31)
    (hrun : ids.foldlM (copyEntry source target) s = .ok s') : s'.Sound := by
  induction ids generalizing s with
  | nil =>
    cases hrun
    exact h
  | cons id ids ih =>
    rw [List.length_cons] at hroom
    rw [List.foldlM_cons] at hrun
    obtain ⟨t, ht, hrun⟩ := Exec.bind_ok_iff.mp hrun
    unfold copyEntry at ht
    cases hget : s.fsUserGetNode source id with
    | none =>
      rw [hget] at ht
      cases ht
      exact ih h (by omega) hrun
    | some d =>
      rw [hget] at ht
      obtain ⟨hsound, hlength⟩ := h.fsUserDuplicateNode (mem_of_fsUserGetNode hget).1 (by omega) ht
      exact ih hsound (by omega) hrun

theorem Sound.run (h : s.Sound) (c : Call) (hroom : s.descriptors.length + fdLimit < 2 ^ 31) (hrun : c.run s = .ok s') :
    s'.Sound := by
  have hlimit : fdLimit = 1024 := rfl
  cases c with
  | pipeOpen files forRead forWrite =>
    obtain ⟨⟨r, t⟩, ht, hrun⟩ := Exec.bind_ok_iff.mp hrun
    cases hrun
    exact h.pipeOpen ht
  | userOpen files answer =>
    obtain ⟨⟨r, t⟩, ht, hrun⟩ := Exec.bind_ok_iff.mp hrun
    cases hrun
    rcases fsUserOpen_cases ht with ⟨-, -, rfl⟩ | ⟨id, -, -, hkey, rfl⟩
    · exact h
    · exact h.register hkey
  | dup files fd =>
    change s.syscallDup files fd = .ok s' at hrun
    unfold syscallDup at hrun
    cases hget : s.fsUserGetNode files fd with
    | none =>
      rw [hget] at hrun
      cases hrun
      exact h
    | some d =>
      rw [hget] at hrun
      obtain ⟨id, -, hrun⟩ := Exec.bind_ok_iff.mp hrun
      exact (h.fsUserDuplicateNode (mem_of_fsUserGetNode hget).1 (by omega) hrun).1
  | dup2 files oldFd newFd => exact h.syscallDup2 (by omega) hrun
  | fork source target =>
    change s.taskFilesCopy source target = .ok s' at hrun
    unfold taskFilesCopy at hrun
    refine h.copyEntries (List.range fdLimit) ?_ hrun
    rwa [List.length_range]
  | close files fd =>
    change s.fsUserClose files fd = .ok s' at hrun
    unfold fsUserClose at hrun
    cases hget : s.fsUserGetNode files fd with
    | none =>
      rw [hget] at hrun
      cases hrun
      exact h
    | some d =>
      rw [hget] at hrun
      exact (h.fsCloseGeneric (mem_of_fsUserGetNode hget).1 (by omega) hrun).1

end State

theorem Reached.sound (h : Reached s) : s.Sound := by
  induction h with
  | boot => exact ⟨holds_nil, List.nodup_nil⟩
  | call c _ hroom hrun ih => exact ih.run c hroom hrun

/-- In every run the counts are those of the descriptors, and a `pipe_open` that fails leaves no
descriptor if and only if both its opens fail. -/
theorem pipeEnds_kept (h : Reached s) :
    s.Counted ∧ ∀ files forRead forWrite s', s.pipeOpen files forRead forWrite = .ok (none, s') →
      (s'.descriptors = s.descriptors ↔ (forRead.Fails ↔ forWrite.Fails)) := by
  refine ⟨h.sound.counted, fun files forRead forWrite s' hrun => ?_⟩
  rcases State.pipeOpen_cases hrun with ⟨readFd, writeFd, hr, -⟩ | ⟨hread, hwrite, rfl⟩ | ⟨hdiffer, id, -, rfl⟩
  · cases hr
  · exact iff_of_true rfl (iff_of_true hread hwrite)
  · exact iff_of_false (List.cons_ne_self _ _) hdiffer

/-- The state once a pipe was opened. -/
theorem pipeEnds_kept_opened :
    Reached ⟨[⟨0, 1, .pipe ⟨true, 0⟩⟩, ⟨0, 0, .pipe ⟨false, 0⟩⟩], [.opened]⟩ ∧
      State.Counted ⟨[⟨0, 1, .pipe ⟨true, 0⟩⟩, ⟨0, 0, .pipe ⟨false, 0⟩⟩], [.opened]⟩ := by
  have h : Reached ⟨[⟨0, 1, .pipe ⟨true, 0⟩⟩, ⟨0, 0, .pipe ⟨false, 0⟩⟩], [.opened]⟩ :=
    .call (.pipeOpen 0 (.opened 1) (.opened 1)) .boot (by decide) (by decide +kernel)
  exact ⟨h, (pipeEnds_kept h).1⟩

/-- The second open fails with `ENOENT`: the call fails, and the first descriptor stays open. -/
theorem half_open_pipe_stays :
    ¬∀ s, Reached s → ∀ files forRead forWrite s', s.pipeOpen files forRead forWrite = .ok (none, s') →
      s'.descriptors = s.descriptors := by
  intro h
  have hrun : State.pipeOpen ⟨[], []⟩ 0 (.opened 1) (.failed 1 4093) = .ok (none, ⟨[⟨0, 0, .file⟩], []⟩) := by
    decide +kernel
  exact List.cons_ne_nil _ _ (h _ .boot 0 (.opened 1) (.failed 1 4093) _ hrun)

end DualFuse.Syscalls.PipeEnds
