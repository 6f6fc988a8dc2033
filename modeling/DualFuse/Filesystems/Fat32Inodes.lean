import DualFuse.Drivers.Calendars
import DualFuse.Filesystems.Fat32Chains

/-! The numbers of files on a FAT32 volume: `fat32_traverse_path` of `fat32_traverse.cpp` and
`fat32_stat` of `fat32_stat.cpp`. A listing counts the entries of a cluster, and a search
gives the place of the entry in bytes, of which eight bits are kept. -/

namespace DualFuse.Filesystems.Fat32

open Library Loop Utility Drivers RecordLoop

namespace Entry

def half (e : Entry) (i : ℕ) : ℕ := e.byte (i + 1) * 256 + e.byte i

def filesize (e : Entry) : ℕ := e.half 30 * 2 ^ 16 + e.half 28

def isDirectory (e : Entry) : Bool := e.attrib &&& fatAttribDirectory != 0

end Entry

/-! ### Paths -/

abbrev SearchWalk := Walk (Round LongName (ℕ × Entry))

def slash : BitVec 8 := 47

/-- The loop of `fat32_traverse_path`: the characters since the last slash, and those that are
left. The last one belongs to the name, a slash too. -/
def pathWalk (n : ℕ) : Fat32 → (directory : ℕ) → (component rest : List (BitVec 8)) → Exec (Option SearchWalk)
  | fat, _, _, [] => .ok (some ⟨fat, 0, .next .cleared⟩)
  | fat, directory, component, [c] => traverseWalk n fat directory (component ++ [c])
  | fat, directory, component, c :: c' :: rest =>
    if c = slash then do
      match ← traverseWalk n fat directory component with
      | none => .ok none
      | some w =>
        if (resultOf w).directory = 0 then .ok (some w)
        else pathWalk n w.fat (resultOf w).dirEntry.firstCluster [] (c' :: rest)
    else pathWalk n fat directory (component ++ [c]) (c' :: rest)

/-- What a path of one character leads to. -/
def rootResult (rootCluster : ℕ) : TraverseResult where
  directory := 0xFFFFFFFF
  index := 0xFF
  dirEntry := ((((noResult.dirEntry.set 11 0x10).set 20 (BitVec.ofNat 8 (rootCluster >>> 16))).set 21
    (BitVec.ofNat 8 (rootCluster >>> 24))).set 26 (BitVec.ofNat 8 rootCluster)).set 27 (BitVec.ofNat 8 (rootCluster >>> 8))

def fat32TraversePath (n : ℕ) (fat : Fat32) (path : List (BitVec 8)) (directoryStarting : ℕ) :
    Exec (Option (Fat32 × TraverseResult)) :=
  if path.length = 1 then .ok (some (fat, rootResult directoryStarting))
  else do
    match ← pathWalk n fat directoryStarting [] path.tail with
    | none => .ok none
    | some w => .ok (some (w.fat, resultOf w))

/-! ### `fat32_stat` -/

structure Stat where
  stDev : ℕ
  stIno : ℕ
  stMode : ℕ
  stNlink : ℕ
  stUid : ℕ
  stGid : ℕ
  stRdev : ℕ
  stBlksize : ℕ
  stSize : ℕ
  stBlocks : ℕ
  stAtime : ℕ
  stMtime : ℕ
  stCtime : ℕ
  deriving DecidableEq, Repr

def sIfreg : ℕ := 0o100000
def sIfdir : ℕ := 0o040000
def sIrwxu : ℕ := 0o700

def fat32StatInternal (res : TraverseResult) : Exec Stat := do
  let e := res.dirEntry
  let stSize := if e.isDirectory then 0x1000 else e.filesize
  let stAtime ← fat32UnixTime (e.half 18) 0
  let stMtime ← fat32UnixTime (e.half 24) (e.half 22)
  let stCtime ← fat32UnixTime (e.half 16) (e.half 14)
  .ok
    { stDev := 69
      stIno := inodeGen res.directory res.index
      stMode := (if e.isDirectory then sIfdir else sIfreg) ||| sIrwxu
      stNlink := 1
      stUid := 0
      stGid := 0
      stRdev := 0
      stBlksize := 0x1000
      stSize := stSize
      stBlocks := ceilingDivision stSize 0x1000 * 0x1000 / 512
      stAtime := stAtime
      stMtime := stMtime
      stCtime := stCtime }

/-- Without a `Stat` the call returns false. -/
def fat32Stat (n : ℕ) (fat : Fat32) (rootCluster : ℕ) (filename : List (BitVec 8)) :
    Exec (Option (Fat32 × Option Stat)) := do
  match ← fat32TraversePath n fat filename rootCluster with
  | none => .ok none
  | some (fat, res) =>
    if res.directory = 0 then .ok (some (fat, none))
    else do
      let target ← fat32StatInternal res
      .ok (some (fat, some target))

/-! ### Files that are reported and listed -/

/-- The volume after some walks along the table. -/
def After (volume fat : Fat32) : Prop := ∃ calls, (volume.fatTraverses calls).1 = fat

/-- The places of the directories that are open. -/
inductive OpenDir (volume : Fat32) (rootCluster : ℕ) : Place → Prop
  | opened {fat fat' : Fat32} {n : ℕ} {path : List (BitVec 8)} {res : TraverseResult} (hfat : After volume fat)
      (hpath : fat32TraversePath n fat path rootCluster = .ok (some (fat', res))) (hres : res.directory ≠ 0)
      (hdir : res.dirEntry.isDirectory) : OpenDir volume rootCluster ⟨0, res.dirEntry.firstCluster⟩
  | listed {fat fat' : Fat32} {n hardlimit : ℕ} {place place' : Place} {reply : Reply}
      (hplace : OpenDir volume rootCluster place) (hfat : After volume fat)
      (hcall : fat32GetDents64 n fat place hardlimit = .ok (some (fat', place', reply))) :
      OpenDir volume rootCluster place'

/-- `fat32_stat` reports the entry at byte `i` of cluster `d`. -/
def Reported (volume : Fat32) (rootCluster d i : ℕ) (st : Stat) : Prop :=
  ∃ fat n path w e fat', After volume fat ∧ path.length ≠ 1 ∧ pathWalk n fat rootCluster [] path.tail = .ok (some w) ∧
    w.directory = d ∧ w.gathered = .done (i, e) ∧ fat32Stat n fat rootCluster path = .ok (some (fat', some st))

/-- A call for the entries of an open directory adds the entry at byte `i` of cluster `d`. -/
def Listed (volume : Fat32) (rootCluster d i : ℕ) (x : Dirent) : Prop :=
  ∃ fat place hardlimit n r e s t, After volume fat ∧ OpenDir volume rootCluster place ∧ place.directoryCurr ≠ 0 ∧
    fat32GetDents64 n fat place hardlimit = .ok (some r) ∧
    Met (fun s => s.ptr % fat.bytesPerCluster) (listVisit hardlimit) (listStart fat place) d (i, e) s ∧
    listVisit hardlimit d (i, e) s = .ok (.next t) ∧ t.entries = s.entries ++ [x]

/-- The two numbers of a file are the same, and no two files have the same one. -/
structure InodesAgree (volume : Fat32) (rootCluster : ℕ) : Prop where
  agree : ∀ d i st x, Reported volume rootCluster d i st → Listed volume rootCluster d i x → st.stIno = x.inode
  injective : ∀ d i x d' i' x', Listed volume rootCluster d i x → Listed volume rootCluster d' i' x' →
    x.inode = x'.inode → d = d' ∧ i = i'

theorem After.sameVolume {volume fat : Fat32} (h : After volume fat) : SameVolume volume fat := by
  obtain ⟨calls, rfl⟩ := h
  induction calls generalizing volume with
  | nil => exact .refl volume
  | cons c calls ih => exact (volume.fatTraverse_same c).trans ih

/-! ### Where the entries are -/

section Places
variable {volume fat : Fat32} {rootCluster d i : ℕ}

/-- The entries of a cluster are 32 bytes apart and inside it. -/
theorem mem_entriesFrom {c o : ℕ} {p : ℕ × Entry} (h : p ∈ fat.entriesFrom c o) (ho : 32 ∣ o) :
    32 ∣ p.1 ∧ p.1 < fat.bytesPerCluster := by
  obtain ⟨k, hk, rfl⟩ := List.mem_map.mp h
  have hlt := List.mem_range.mp hk
  obtain ⟨m, rfl⟩ := ho
  have hsize : fat.bytesPerCluster = fat.sectorsPerCluster * 512 := rfl
  constructor
  · exact ⟨m + k, by ring⟩
  · dsimp only
    omega

theorem bytesPerCluster_lt (h : fat.sectorsPerCluster < 2 ^ 8) : fat.bytesPerCluster < 2 ^ 17 := by
  unfold bytesPerCluster sectorSize
  omega

theorem sectorsPerCluster_of_mount {disk : ℕ → BitVec 8} {lba : ℕ} (h : fat32Mount disk lba = .ok fat) :
    fat.sectorsPerCluster < 2 ^ 8 := by
  have hfield : bootField disk lba 13 1 < 256 ^ 1 := Bytes.readNat_lt
  unfold fat32Mount at h
  dsimp only at h
  split_ifs at h
  cases h
  exact hfield

theorem traverseVisit_done {search : List (BitVec 8)} {p x : ℕ × Entry} {long : LongName}
    (h : traverseVisit search p long = .ok (.done x)) : x = p := by
  obtain ⟨long', -, h⟩ := Exec.bind_ok_iff.mp h
  unfold traverseNode at h
  split_ifs at h
  · obtain ⟨b, -, h⟩ := Exec.bind_ok_iff.mp h
    cases b with
    | true => exact (Round.done.inj (Except.ok.inj h)).symm
    | false => cases h
  · cases h

/-- A search has its result at an entry of the cluster. -/
theorem traverseWalk_done {n c : ℕ} {search : List (BitVec 8)} {w : SearchWalk} {e : Entry}
    (h : traverseWalk n fat c search = .ok (some w)) (hdone : w.gathered = .done (i, e)) :
    32 ∣ i ∧ i < fat.bytesPerCluster := by
  obtain ⟨u, hreaches, hround⟩ := run_some h
  rcases clusterRound_done hround with ⟨x, rfl, hscan⟩ | ⟨s, rfl, -⟩
  · obtain ⟨before, p, after, long, hsplit, -, hvisit⟩ := scan_done hscan
    have hmem : p ∈ u.fat.entriesFrom u.directory 0 := hsplit ▸ List.mem_append_right before List.mem_cons_self
    have hplace := mem_entriesFrom hmem (dvd_zero 32)
    rw [(reaches_sameVolume hreaches).bytesPerCluster] at hplace
    have hx : x = (p.1, p.2) := traverseVisit_done hvisit
    cases hdone
    cases hx
    exact hplace
  · cases hdone

theorem pathWalk_done {n : ℕ} {directory : ℕ} {component rest : List (BitVec 8)} {w : SearchWalk} {e : Entry}
    (h : pathWalk n fat directory component rest = .ok (some w)) (hdone : w.gathered = .done (i, e)) :
    32 ∣ i ∧ i < fat.bytesPerCluster := by
  induction rest generalizing fat directory component with
  | nil =>
    cases h
    cases hdone
  | cons c rest ih =>
    cases rest with
    | nil => exact traverseWalk_done h hdone
    | cons c' rest =>
      rw [pathWalk] at h
      split_ifs at h
      · obtain ⟨walk, hwalk, h⟩ := Exec.bind_ok_iff.mp h
        cases walk with
        | none => cases h
        | some u =>
          dsimp only at h
          split_ifs at h
          · cases h
            exact traverseWalk_done hwalk hdone
          · have hsame : SameVolume fat u.fat := run_sameVolume hwalk
            rw [← hsame.bytesPerCluster]
            exact ih h
      · exact ih h

theorem fat32StatInternal_stIno {res : TraverseResult} {st : Stat} (h : fat32StatInternal res = .ok st) :
    st.stIno = inodeGen res.directory res.index := by
  unfold fat32StatInternal at h
  obtain ⟨stAtime, -, h⟩ := Exec.bind_ok_iff.mp h
  obtain ⟨stMtime, -, h⟩ := Exec.bind_ok_iff.mp h
  obtain ⟨stCtime, -, h⟩ := Exec.bind_ok_iff.mp h
  cases h
  rfl

/-- The number that is reported. -/
theorem Reported.spec {st : Stat} (h : Reported volume rootCluster d i st) :
    st.stIno = inodeGen d (i % 2 ^ 8) ∧ 32 ∣ i ∧ i < volume.bytesPerCluster := by
  obtain ⟨fat, n, path, w, e, fat', hfat, hlength, hwalk, rfl, hdone, hstat⟩ := h
  have hplace := pathWalk_done hwalk hdone
  rw [hfat.sameVolume.bytesPerCluster] at hplace
  refine ⟨?_, hplace⟩
  have hres : resultOf w = ⟨w.directory, i % 2 ^ 8, e⟩ := by
    obtain ⟨fat₁, directory, gathered⟩ := w
    cases hdone
    rfl
  have hpath : fat32TraversePath n fat path rootCluster = .ok (some (w.fat, resultOf w)) := by
    rw [fat32TraversePath, if_neg hlength, hwalk, Exec.ok_bind]
  rw [fat32Stat, hpath, Exec.ok_bind] at hstat
  dsimp only at hstat
  by_cases hzero : (resultOf w).directory = 0
  · rw [if_pos hzero] at hstat
    cases hstat
  · rw [if_neg hzero] at hstat
    obtain ⟨target, htarget, hstat⟩ := Exec.bind_ok_iff.mp hstat
    cases hstat
    rw [fat32StatInternal_stIno htarget, hres]

/-- A visit that goes on moves the pointer by one entry, and adds at most that entry. -/
theorem listVisit_next {hardlimit : ℕ} {p : ℕ × Entry} {s t : Listing}
    (h : listVisit hardlimit d p s = .ok (.next t)) :
    t.ptr = (s.ptr + 32) % 2 ^ 32 ∧
      (t.entries = s.entries ∨ ∃ type name, t.entries = s.entries ++ [⟨inodeGen d (p.1 / 32), type, name⟩]) := by
  obtain ⟨long, -, h⟩ := Exec.bind_ok_iff.mp h
  unfold listNode at h
  split_ifs at h
  · obtain ⟨filename, -, h⟩ := Exec.bind_ok_iff.mp h
    dsimp only at h
    split_ifs at h
    · cases h
    · cases h
      exact ⟨rfl, Or.inr ⟨_, _, rfl⟩⟩
  · cases h
    exact ⟨rfl, Or.inl rfl⟩

theorem listVisit_done {hardlimit : ℕ} {p : ℕ × Entry} {s r : Listing}
    (h : listVisit hardlimit d p s = .ok (.done r)) : r.ptr = s.ptr := by
  obtain ⟨long, -, h⟩ := Exec.bind_ok_iff.mp h
  unfold listNode at h
  split_ifs at h
  · obtain ⟨filename, -, h⟩ := Exec.bind_ok_iff.mp h
    dsimp only at h
    split_ifs at h
    · cases h
      rfl
    · cases h
  · cases h

def Listing.Aligned (s : Listing) : Prop := 32 ∣ s.ptr

theorem listVisit_aligned {hardlimit d : ℕ} {p : ℕ × Entry} {s t : Listing} (hs : s.Aligned)
    (h : listVisit hardlimit d p s = .ok (.next t)) : t.Aligned := by
  unfold Listing.Aligned at hs ⊢
  rw [(listVisit_next h).1]
  omega

theorem OpenDir.aligned {place : Place} (h : OpenDir volume rootCluster place) : 32 ∣ place.ptr := by
  induction h with
  | opened => exact dvd_zero 32
  | @listed fat fat' n hardlimit place place' reply hplace hfat hcall ih =>
    unfold fat32GetDents64 at hcall
    split_ifs at hcall
    · cases hcall
      exact ih
    · obtain ⟨a, hrun, hcall⟩ := Exec.bind_ok_iff.mp hcall
      cases a with
      | none => cases hcall
      | some w =>
        obtain ⟨u, hreaches, hround⟩ := run_some hrun
        have hu : u.gathered.Aligned :=
          gathered_invariant Listing.Aligned (fun _ _ _ _ => listVisit_aligned) hreaches ih
        rcases clusterRound_done hround with ⟨x, rfl, hscan⟩ | ⟨s, rfl, hscan⟩
        · cases hcall
          obtain ⟨before, p, after, t, -, hbefore, hvisit⟩ := scan_done hscan
          have ht : t.Aligned := scan_invariant (fun _ _ _ => listVisit_aligned) hu hbefore
          exact (listVisit_done hvisit).symm ▸ ht
        · cases hcall
          have hs : s.Aligned := scan_invariant (fun _ _ _ => listVisit_aligned) hu hscan
          exact hs

/-- The number that is listed. -/
theorem Listed.spec {x : Dirent} (h : Listed volume rootCluster d i x) :
    x.inode = inodeGen d (i / 32) ∧ 32 ∣ i ∧ i < volume.bytesPerCluster := by
  obtain ⟨fat, place, hardlimit, n, r, e, s, t, hfat, hplace, -, -, hmet, hvisit, hentries⟩ := h
  constructor
  · rcases (listVisit_next hvisit).2 with heq | ⟨type, name, heq⟩
    · rw [heq] at hentries
      simpa using congrArg List.length hentries
    · rw [heq] at hentries
      have hx := List.append_cancel_left hentries
      rw [← List.head_eq_of_cons_eq hx]
  · obtain ⟨u, hreaches, -, before, after, hsplit, -⟩ := hmet
    have hu : u.gathered.Aligned :=
      gathered_invariant Listing.Aligned (fun _ _ _ _ => listVisit_aligned) hreaches hplace.aligned
    have hsize : 32 ∣ fat.bytesPerCluster := Dvd.dvd.mul_left (by decide) _
    have hmem : (i, e) ∈ u.fat.entriesFrom d (u.gathered.ptr % fat.bytesPerCluster) :=
      hsplit ▸ List.mem_append_right before List.mem_cons_self
    have hplace := mem_entriesFrom hmem ((Nat.dvd_mod_iff hsize).mpr hu)
    rw [(reaches_sameVolume hreaches).bytesPerCluster] at hplace
    rwa [← hfat.sameVolume.bytesPerCluster]

end Places

/-! ### The two numbers -/

/-- Eight bits of the place of an entry are its number in the cluster only for the first one. -/
theorem inodeGen_place_iff {i : ℕ} (hi : 32 ∣ i) (hlt : i < 2 ^ 17) (d : ℕ) :
    inodeGen d (i % 2 ^ 8) = inodeGen d (i / 32) ↔ i = 0 := by
  obtain ⟨k, rfl⟩ := hi
  unfold inodeGen
  omega

/-- Entries of one cluster have different numbers. -/
theorem inodeGen_same_cluster {i i' : ℕ} (hi : 32 ∣ i) (hi' : 32 ∣ i') (hlt : i < 2 ^ 17) (hlt' : i' < 2 ^ 17) {d : ℕ}
    (h : inodeGen d (i / 32) = inodeGen d (i' / 32)) : i = i' := by
  unfold inodeGen at h
  omega

/-- Entries of two clusters have the same number if they are a hundred apart for each cluster
between them, in 32 bits. -/
theorem inodeGen_eq_iff {d d' i : ℕ} (hd : d < d') (hlt : i < 2 ^ 17) (i' : ℕ) :
    inodeGen d (i / 32) = inodeGen d' (i' / 32) ↔ ∃ m, i / 32 + 2 ^ 32 * m = i' / 32 + 100 * (d' - d) := by
  unfold inodeGen
  constructor
  · intro h
    exact ⟨(i' / 32 + 100 * (d' - d)) / 2 ^ 32, by omega⟩
  · rintro ⟨m, hm⟩
    omega

/-- The numbers agree exactly if every file that is both reported and listed is the first entry
of its cluster, and no two listed entries are a hundred apart for each cluster between them. -/
theorem inodesAgree_iff {disk : ℕ → BitVec 8} {lba : ℕ} {volume : Fat32} (hmount : fat32Mount disk lba = .ok volume)
    (rootCluster : ℕ) :
    InodesAgree volume rootCluster ↔
      (∀ d i st x, Reported volume rootCluster d i st → Listed volume rootCluster d i x → i = 0) ∧
        ∀ d i x d' i' x', Listed volume rootCluster d i x → Listed volume rootCluster d' i' x' → d < d' →
          ∀ m, i / 32 + 2 ^ 32 * m ≠ i' / 32 + 100 * (d' - d) := by
  have hsize := bytesPerCluster_lt (sectorsPerCluster_of_mount hmount)
  constructor
  · intro h
    constructor
    · intro d i st x hreported hlisted
      obtain ⟨hino, hi, hlt⟩ := hreported.spec
      have heq := h.agree d i st x hreported hlisted
      rw [hino, hlisted.spec.1] at heq
      exact (inodeGen_place_iff hi (hlt.trans hsize) d).mp heq
    · intro d i x d' i' x' hlisted hlisted' hd m hm
      obtain ⟨hino, -, hlt⟩ := hlisted.spec
      have heq : x.inode = x'.inode := by
        rw [hino, hlisted'.spec.1]
        exact (inodeGen_eq_iff hd (hlt.trans hsize) i').mpr ⟨m, hm⟩
      exact hd.ne (h.injective d i x d' i' x' hlisted hlisted' heq).1
  · rintro ⟨hfirst, hapart⟩
    constructor
    · intro d i st x hreported hlisted
      obtain ⟨hino, hi, hlt⟩ := hreported.spec
      rw [hino, hlisted.spec.1]
      exact (inodeGen_place_iff hi (hlt.trans hsize) d).mpr (hfirst d i st x hreported hlisted)
    · intro d i x d' i' x' hlisted hlisted' heq
      obtain ⟨hino, hi, hlt⟩ := hlisted.spec
      obtain ⟨hino', hi', hlt'⟩ := hlisted'.spec
      rw [hino, hino'] at heq
      rcases lt_trichotomy d d' with hd | rfl | hd
      · obtain ⟨m, hm⟩ := (inodeGen_eq_iff hd (hlt.trans hsize) i').mp heq
        exact absurd hm (hapart d i x d' i' x' hlisted hlisted' hd m)
      · exact ⟨rfl, inodeGen_same_cluster hi hi' (hlt.trans hsize) (hlt'.trans hsize) heq⟩
      · obtain ⟨m, hm⟩ := (inodeGen_eq_iff hd (hlt'.trans hsize) i).mp heq.symm
        exact absurd hm (hapart d' i' x' d i x hlisted' hlisted hd m)

/-! ### A file in the second place -/

/-- A partition with a label and the file `B` in its root directory, which is cluster 2. -/
def labelledDisk (i : ℕ) : BitVec 8 :=
  if i ∈ [12, 44] then 2 else if i ∈ [13, 14, 16, 36] then 1 else if i = 1024 then 76 else if i = 1035 then 8
  else if i = 1056 then 66 else if 1057 ≤ i ∧ i ≤ 1067 then 32 else if i ∈ [1072, 1074, 1080] then 33 else 0

def labelled : Fat32 where
  disk := labelledDisk
  offsetFats := 1
  offsetClusters := 2
  sectorsPerCluster := 1
  cache := List.replicate 32 (0xFFFFFFFF, List.replicate 512 0)
  cacheCurr := 0

def label : Entry := (labelled.getDiskBytes 2 1).take 32

def fileB : Entry := ((labelled.getDiskBytes 2 1).drop 32).take 32

theorem labelled_mounted : fat32Mount labelledDisk 0 = .ok labelled := by
  rfl

theorem inodesAgree_labelled :
    InodesAgree labelled 2 ↔
      (∀ d i st x, Reported labelled 2 d i st → Listed labelled 2 d i x → i = 0) ∧
        ∀ d i x d' i' x', Listed labelled 2 d i x → Listed labelled 2 d' i' x' → d < d' →
          ∀ m, i / 32 + 2 ^ 32 * m ≠ i' / 32 + 100 * (d' - d) :=
  inodesAgree_iff labelled_mounted 2

theorem labelled_entries : ∃ rest, labelled.entriesFrom 2 0 = (0, label) :: (32, fileB) :: rest := ⟨_, rfl⟩

theorem label_idle : label.isFragment = false ∧ label.isNode = false := by decide +kernel

theorem fileB_node : fileB.isFragment = false ∧ fileB.isNode = true ∧ shortMatches [66] fileB = true := by
  decide +kernel

theorem traverseVisit_found {search : List (BitVec 8)} {e : Entry} {long : LongName} (hfragment : e.isFragment = false)
    (hnode : e.isNode = true) (hlast : long.lfnLast < 0) (hmatches : shortMatches search e = true) (i : ℕ) :
    traverseVisit search (i, e) long = .ok (.done (i, e)) := by
  simp [traverseVisit, LongName.noted, traverseNode, found, hfragment, hnode, not_le.mpr hlast, hmatches]

theorem fileB_reported : ∃ st, Reported labelled 2 2 32 st := by
  obtain ⟨rest, hentries⟩ := labelled_entries
  obtain ⟨hfragment, hnode, hmatches⟩ := fileB_node
  have hscan : scan (traverseVisit [66]) (labelled.entriesFrom 2 0) .cleared = .ok (.done (32, fileB)) := by
    rw [hentries, scan_cons_next (traverseVisit_idle label_idle.1 label_idle.2 [66] 0 .cleared),
      scan_cons_done (traverseVisit_found hfragment hnode (by decide) hmatches 32)]
  have hround : traverseRound [66] ⟨labelled, 2, .cleared⟩ = .ok (.done ⟨labelled, 2, .done (32, fileB)⟩) :=
    clusterRound_of_done hscan
  have hwalk : pathWalk 1 labelled 2 [] [66] = .ok (some ⟨labelled, 2, .done (32, fileB)⟩) := run_done hround 0
  obtain ⟨st, hst⟩ : ∃ st, fat32StatInternal ⟨2, 32, fileB⟩ = .ok st := by
    have hok : (fat32StatInternal ⟨2, 32, fileB⟩).isOk = true := by decide +kernel
    cases hstat : fat32StatInternal ⟨2, 32, fileB⟩ with
    | error x =>
      rw [hstat] at hok
      cases hok
    | ok st => exact ⟨st, rfl⟩
  refine ⟨st, labelled, 1, [47, 66], _, fileB, labelled, ⟨[], rfl⟩, by decide, hwalk, rfl, rfl, ?_⟩
  have hpath : fat32TraversePath 1 labelled [47, 66] 2 = .ok (some (labelled, ⟨2, 32, fileB⟩)) := by
    rw [fat32TraversePath, if_neg (by decide), List.tail_cons, hwalk]
    rfl
  rw [fat32Stat, hpath, Exec.ok_bind]
  dsimp only
  rw [if_neg (by decide), hst]
  rfl

theorem listVisit_idle {e : Entry} (hfragment : e.isFragment = false) (hnode : e.isNode = false) (hardlimit d i : ℕ)
    (s : Listing) : listVisit hardlimit d (i, e) s = .ok (.next { s with ptr := (s.ptr + 32) % 2 ^ 32 }) := by
  simp [listVisit, LongName.noted, listNode, hfragment, hnode]

/-- An entry that is added. -/
theorem listVisit_adds {hardlimit d i : ℕ} {e : Entry} {s : Listing}
    (h : (match listVisit hardlimit d (i, e) s with
      | .ok (.next t) => t.entries.length != s.entries.length
      | _ => false) = true) :
    ∃ t x, listVisit hardlimit d (i, e) s = .ok (.next t) ∧ t.entries = s.entries ++ [x] := by
  cases hvisit : listVisit hardlimit d (i, e) s with
  | error y =>
    rw [hvisit] at h
    cases h
  | ok a =>
    cases a with
    | done r =>
      rw [hvisit] at h
      cases h
    | next t =>
      rw [hvisit] at h
      rcases (listVisit_next hvisit).2 with heq | ⟨type, name, heq⟩
      · simp [heq] at h
      · exact ⟨t, _, rfl, heq⟩

theorem fileB_listed : ∃ x, Listed labelled 2 2 32 x := by
  obtain ⟨rest, hentries⟩ := labelled_entries
  have hplace : OpenDir labelled 2 ⟨0, 2⟩ := by
    have hpath : fat32TraversePath 0 labelled [47] 2 = .ok (some (labelled, rootResult 2)) := if_pos rfl
    have hcluster : (rootResult 2).dirEntry.firstCluster = 2 := by decide +kernel
    have hopened : OpenDir labelled 2 ⟨0, (rootResult 2).dirEntry.firstCluster⟩ :=
      .opened ⟨[], rfl⟩ hpath (by decide) (by decide +kernel)
    rwa [hcluster] at hopened
  have hcall : ∃ r, fat32GetDents64 1 labelled ⟨0, 2⟩ 1000 = .ok (some r) := by
    have hsome : ((fat32GetDents64 1 labelled ⟨0, 2⟩ 1000).toOption.bind id).isSome = true := by decide +kernel
    cases hget : fat32GetDents64 1 labelled ⟨0, 2⟩ 1000 with
    | error y =>
      rw [hget] at hsome
      cases hsome
    | ok a =>
      cases a with
      | none =>
        rw [hget] at hsome
        cases hsome
      | some r => exact ⟨r, rfl⟩
  obtain ⟨r, hr⟩ := hcall
  have hscan : scan (listVisit 1000 2) [(0, label)] ⟨.cleared, 0, 0, []⟩ = .ok (.next ⟨.cleared, 32, 0, []⟩) :=
    (scan_single _ _ _).trans (listVisit_idle label_idle.1 label_idle.2 1000 2 0 _)
  have hmet : Met (fun s => s.ptr % labelled.bytesPerCluster) (listVisit 1000) (listStart labelled ⟨0, 2⟩) 2
      (32, fileB) ⟨.cleared, 32, 0, []⟩ := by
    refine ⟨listStart labelled ⟨0, 2⟩, .refl _, rfl, [(0, label)], rest, ?_, hscan⟩
    change labelled.entriesFrom 2 (0 % labelled.bytesPerCluster) = _
    rw [Nat.zero_mod]
    exact hentries
  obtain ⟨t, x, hvisit, hx⟩ : ∃ t x, listVisit 1000 2 (32, fileB) ⟨.cleared, 32, 0, []⟩ = .ok (.next t) ∧
      t.entries = [] ++ [x] := listVisit_adds (by decide +kernel)
  exact ⟨x, labelled, ⟨0, 2⟩, 1000, 1, r, fileB, _, t, ⟨[], rfl⟩, hplace, by decide, hr, hmet, hvisit, hx⟩

/-- `fat32_stat` reports 232 and `fat32_get_dents64` lists 201. -/
theorem second_entry_disagrees : ¬InodesAgree labelled 2 := by
  intro h
  obtain ⟨st, hreported⟩ := fileB_reported
  obtain ⟨x, hlisted⟩ := fileB_listed
  have heq := h.agree 2 32 st x hreported hlisted
  rw [hreported.spec.1, hlisted.spec.1] at heq
  exact absurd heq (by decide)

end DualFuse.Filesystems.Fat32
