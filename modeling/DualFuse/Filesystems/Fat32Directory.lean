import DualFuse.Filesystems.Fat32Cache
import DualFuse.Filesystems.Ext2.RecordLoops
import DualFuse.Library.CString
import DualFuse.Library.Scan

/-! The directories of a FAT32 volume: `fat32_traverse` of `fat32_traverse.cpp`,
`fat32_get_dents64` of `fat32_dirs.cpp`, `fat32_stat` of `fat32_stat.cpp` and the names of
`fat32_util.cpp`. Both walks go over the entries of one cluster after the other and gather
the fragments of long names on the way, in `lfnName`. An access outside it is a fault. -/

namespace DualFuse.Filesystems.Fat32

open Library Loop Utility RecordLoop

/-- The 32 bytes of a directory entry. -/
abbrev Entry := List (BitVec 8)

namespace Entry

def byte (e : Entry) (i : ℕ) : ℕ := (e.getD i 0).toNat

def name (e : Entry) : List (BitVec 8) := e.take 8

def ext (e : Entry) : List (BitVec 8) := (e.drop 8).take 3

def attrib (e : Entry) : ℕ := e.byte 11

/-- The first byte; in a fragment of a long name, its number. -/
def order (e : Entry) : ℕ := e.byte 0

/-- `FAT_COMB_HIGH_LOW`. -/
def firstCluster (e : Entry) : ℕ := (e.byte 21 * 256 + e.byte 20) <<< 16 ||| (e.byte 27 * 256 + e.byte 26)

/-- A fragment of a long name: `FAT_ATTRIB_LFN` with the type of a name. -/
def isFragment (e : Entry) : Bool := e.attrib == 0x0F && e.byte 12 == 0

/-- What the walks take for a directory or a file. -/
def isNode (e : Entry) : Bool := e.attrib == 0x10 || e.attrib == 0x20

/-- The low bytes of the thirteen characters. -/
def characters (e : Entry) : List (BitVec 8) := [1, 3, 5, 7, 9, 14, 16, 18, 20, 22, 24, 28, 30].map fun i => e.getD i 0

/-- The place of a fragment, without the flag of the last one. -/
def index (e : Entry) : ℤ := (e.order &&& 0xBF : ℕ) - 1

end Entry

def lfnMax : ℤ := 20
def lfnMaxTotalChars : ℕ := 256
def lfnOrderFinal : ℕ := 0x40

/-! ### Long names -/

/-- `lfnName` and `lfnLast`. -/
structure LongName where
  lfnName : List (BitVec 8)
  lfnLast : ℤ
  deriving DecidableEq

namespace LongName

def cleared : LongName := ⟨List.replicate lfnMaxTotalChars 0, -1⟩

def lfnMemCpy (lfnName : List (BitVec 8)) (lfn : Entry) (index : ℤ) : Exec (List (BitVec 8)) :=
  if index < 0 then .error .fault else CString.memcpy lfnName (index.toNat * 13) lfn.characters 0 13

/-- The fragment of an entry, if it is one. -/
def noted (long : LongName) (e : Entry) : Exec LongName :=
  if e.isFragment then
    if e.index ≥ lfnMax then .error .halt
    else do
      let lfnName ← lfnMemCpy long.lfnName e e.index
      .ok ⟨lfnName, if e.order &&& lfnOrderFinal ≠ 0 then e.index else long.lfnLast⟩
  else .ok long

/-- The bytes up to the terminator. -/
def text (long : LongName) : Exec (List (BitVec 8)) := do
  let lfnLen ← CString.strlen long.lfnName
  .ok (long.lfnName.take lfnLen)

end LongName

/-! ### Clusters -/

/-- The entries of a cluster from byte `o` on, with their places. -/
def entriesFrom (fat : Fat32) (cluster o : ℕ) : List (ℕ × Entry) :=
  let bytes := fat.getDiskBytes (fat.clusterToLba cluster) fat.sectorsPerCluster
  (List.range ((fat.bytesPerCluster - o + 31) / 32)).map fun k => (o + 32 * k, (bytes.drop (o + 32 * k)).take 32)

/-- A walk over the clusters of a directory: the volume, the cluster and what was gathered. -/
structure Walk (σ : Type) where
  fat : Fat32
  directory : ℕ
  gathered : σ

/-- One cluster, and the step to the next one. The walk is over where an entry stops it, or in
cluster 0 at the end of the chain. -/
def clusterRound {σ ρ : Type} (start : σ → ℕ) (visit : ℕ → ℕ × Entry → σ → Exec (Round σ ρ)) (w : Walk σ) :
    Exec (Round (Walk σ) (Walk (Round σ ρ))) := do
  match ← scan (visit w.directory) (w.fat.entriesFrom w.directory (start w.gathered)) w.gathered with
  | .done r => .ok (.done ⟨w.fat, w.directory, .done r⟩)
  | .next s =>
    if (w.fat.fatTraverse w.directory).2 = 0 then .ok (.done ⟨(w.fat.fatTraverse w.directory).1, 0, .next s⟩)
    else .ok (.next ⟨(w.fat.fatTraverse w.directory).1, (w.fat.fatTraverse w.directory).2, s⟩)

/-- An entry that a walk comes to in a cluster, and what was gathered before it. -/
def Met {σ ρ : Type} (start : σ → ℕ) (visit : ℕ → ℕ × Entry → σ → Exec (Round σ ρ)) (w : Walk σ) (directory : ℕ)
    (p : ℕ × Entry) (s : σ) : Prop :=
  ∃ w', Reaches (clusterRound start visit) w w' ∧ w'.directory = directory ∧ ∃ before after,
    w'.fat.entriesFrom directory (start w'.gathered) = before ++ p :: after ∧
      scan (visit directory) before w'.gathered = .ok (.next s)

section Walks
variable {σ ρ : Type} {start : σ → ℕ} {visit : ℕ → ℕ × Entry → σ → Exec (Round σ ρ)} {w w' : Walk σ}

theorem clusterRound_of_next {s : σ}
    (h : scan (visit w.directory) (w.fat.entriesFrom w.directory (start w.gathered)) w.gathered = .ok (.next s)) :
    clusterRound start visit w =
      if (w.fat.fatTraverse w.directory).2 = 0 then .ok (.done ⟨(w.fat.fatTraverse w.directory).1, 0, .next s⟩)
      else .ok (.next ⟨(w.fat.fatTraverse w.directory).1, (w.fat.fatTraverse w.directory).2, s⟩) := by
  rw [clusterRound, h, Exec.ok_bind]

theorem clusterRound_of_done {r : ρ}
    (h : scan (visit w.directory) (w.fat.entriesFrom w.directory (start w.gathered)) w.gathered = .ok (.done r)) :
    clusterRound start visit w = .ok (.done ⟨w.fat, w.directory, .done r⟩) := by
  rw [clusterRound, h, Exec.ok_bind]

theorem clusterRound_of_error {x : Stop}
    (h : scan (visit w.directory) (w.fat.entriesFrom w.directory (start w.gathered)) w.gathered = .error x) :
    clusterRound start visit w = .error x := by
  rw [clusterRound, h, Exec.error_bind]

/-- A round that leads on has gone over a whole cluster. -/
theorem clusterRound_next (h : clusterRound start visit w = .ok (.next w')) :
    scan (visit w.directory) (w.fat.entriesFrom w.directory (start w.gathered)) w.gathered = .ok (.next w'.gathered) ∧
      w'.fat = (w.fat.fatTraverse w.directory).1 ∧ w'.directory = (w.fat.fatTraverse w.directory).2 ∧
        w'.directory ≠ 0 := by
  cases hscan : scan (visit w.directory) (w.fat.entriesFrom w.directory (start w.gathered)) w.gathered with
  | error x =>
    rw [clusterRound_of_error hscan] at h
    cases h
  | ok a =>
    cases a with
    | done r =>
      rw [clusterRound_of_done hscan] at h
      cases h
    | next s =>
      rw [clusterRound_of_next hscan] at h
      by_cases hzero : (w.fat.fatTraverse w.directory).2 = 0
      · rw [if_pos hzero] at h
        cases h
      · rw [if_neg hzero] at h
        have heq := Round.next.inj (Except.ok.inj h)
        subst heq
        exact ⟨rfl, rfl, rfl, hzero⟩

theorem scan_of_clusterRound_error {x : Stop} (h : clusterRound start visit w = .error x) :
    scan (visit w.directory) (w.fat.entriesFrom w.directory (start w.gathered)) w.gathered = .error x := by
  cases hscan : scan (visit w.directory) (w.fat.entriesFrom w.directory (start w.gathered)) w.gathered with
  | error y =>
    rw [clusterRound_of_error hscan] at h
    exact congrArg Except.error (Except.error.inj h)
  | ok a =>
    cases a with
    | done r =>
      rw [clusterRound_of_done hscan] at h
      cases h
    | next s =>
      rw [clusterRound_of_next hscan] at h
      split_ifs at h

theorem gathered_invariant (inv : σ → Prop) (hkeeps : ∀ d p s t, inv s → visit d p s = .ok (.next t) → inv t)
    (h : Reaches (clusterRound start visit) w w') (hw : inv w.gathered) : inv w'.gathered :=
  h.invariant (fun w => inv w.gathered)
    (fun u _ hu hround => scan_invariant (hkeeps u.directory) hu (clusterRound_next hround).1) hw

theorem Met.invariant (inv : σ → Prop) (hkeeps : ∀ d p s t, inv s → visit d p s = .ok (.next t) → inv t) {d : ℕ}
    {p : ℕ × Entry} {s : σ} (h : Met start visit w d p s) (hw : inv w.gathered) : inv s := by
  obtain ⟨w', hreaches, -, before, after, -, hscan⟩ := h
  exact scan_invariant (hkeeps d) (gathered_invariant inv hkeeps hreaches hw) hscan

/-- A walk fails at an entry that it comes to. -/
theorem met_of_run_error {n : ℕ} {x : Stop} (h : run (clusterRound start visit) n w = .error x) :
    ∃ d p s, Met start visit w d p s ∧ visit d p s = .error x := by
  induction n generalizing w with
  | zero => cases h
  | succ n ih =>
    cases hround : clusterRound start visit w with
    | error y =>
      rw [run_error hround] at h
      cases h
      obtain ⟨before, p, after, s, hsplit, hscan, hvisit⟩ := scan_error (scan_of_clusterRound_error hround)
      exact ⟨w.directory, p, s, ⟨w, .refl w, rfl, before, after, hsplit, hscan⟩, hvisit⟩
    | ok a =>
      cases a with
      | done r =>
        rw [run_done hround] at h
        cases h
      | next w' =>
        rw [run_next hround] at h
        obtain ⟨d, p, s, ⟨u, hreaches, hmet⟩, hvisit⟩ := ih h
        exact ⟨d, p, s, ⟨u, .step hround hreaches, hmet⟩, hvisit⟩

end Walks

/-! ### Searching a name -/

def dotChar : BitVec 8 := 46
def spaceChar : BitVec 8 := 32

/-- `IS_UPPERCASE`; it takes digits as well. -/
def isUppercase (c : BitVec 8) : Bool := (65 ≤ c.toNat && c.toNat ≤ 90) || (48 ≤ c.toNat && c.toNat ≤ 57)

/-- The place of the last dot, and 0 if there is none; nothing if a character is not allowed. -/
def dotLoop : List (BitVec 8) → (i dotat : ℕ) → Option ℕ
  | [], _, dotat => some dotat
  | c :: filename, i, dotat =>
    if c = dotChar then dotLoop filename (i + 1) i
    else if isUppercase c || c == spaceChar then dotLoop filename (i + 1) dotat
    else none

/-- `fat32_is_short_filename_possible`, which is negative without a result. The length less four
is a `size_t`. -/
def shortDot (filename : List (BitVec 8)) : Option ℕ :=
  if 12 < filename.length then none
  else
    match dotLoop filename 0 0 with
    | none => none
    | some dotat => if dotat ≠ 0 ∧ dotat < wrap (filename.length + (2 ^ 64 - 4)) then none else some dotat

/-- The two comparisons with a short name. -/
def shortMatches (search : List (BitVec 8)) (e : Entry) : Bool :=
  match shortDot search with
  | none => false
  | some dot =>
    let n := if dot = 0 then search.length else dot
    e.take n == search.take n && (dot == 0 || (e.drop 8).take (search.length - dot - 1) == search.drop (dot + 1))

/-- The entry has the name that is searched. -/
def found (search : List (BitVec 8)) (long : LongName) (e : Entry) : Exec Bool :=
  if 0 ≤ long.lfnLast then do
    let text ← long.text
    .ok (text == search)
  else .ok (shortMatches search e)

def traverseNode (search : List (BitVec 8)) (i : ℕ) (e : Entry) (long : LongName) :
    Exec (Round LongName (ℕ × Entry)) :=
  if e.isNode then do
    let found ← found search long e
    .ok (if found then .done (i, e) else .next .cleared)
  else .ok (.next long)

def traverseVisit (search : List (BitVec 8)) (p : ℕ × Entry) (long : LongName) :
    Exec (Round LongName (ℕ × Entry)) := do
  let long ← long.noted p.2
  traverseNode search p.1 p.2 long

def traverseRound (search : List (BitVec 8)) :
    Walk LongName → Exec (Round (Walk LongName) (Walk (Round LongName (ℕ × Entry)))) :=
  clusterRound (fun _ => 0) fun _ => traverseVisit search

/-- The result of a search; without one, `directory` is 0. -/
structure TraverseResult where
  directory : ℕ
  index : ℕ
  dirEntry : Entry
  deriving DecidableEq

def noResult : TraverseResult := ⟨0, 0, List.replicate 32 0⟩

/-- `index` has 8 bits. -/
def resultOf : Walk (Round LongName (ℕ × Entry)) → TraverseResult
  | ⟨_, directory, .done (i, e)⟩ => ⟨directory, i % 2 ^ 8, e⟩
  | ⟨_, _, .next _⟩ => noResult

/-- The walk of `fat32_traverse` over at most `n` clusters; nothing if they are not enough. -/
def traverseWalk (n : ℕ) (fat : Fat32) (initDirectory : ℕ) (search : List (BitVec 8)) :
    Exec (Option (Walk (Round LongName (ℕ × Entry)))) :=
  run (traverseRound search) n ⟨fat, initDirectory, .cleared⟩

def fat32Traverse (n : ℕ) (fat : Fat32) (initDirectory : ℕ) (search : List (BitVec 8)) :
    Exec (Option (Fat32 × TraverseResult)) := do
  match ← traverseWalk n fat initDirectory search with
  | none => .ok none
  | some w => .ok (some (w.fat, resultOf w))

/-! ### Listing -/

/-- `FAT_INODE_GEN`, in 32 bits. -/
def inodeGen (directory index : ℕ) : ℕ := (directory * 100 + index) % 2 ^ 32

/-- `fat32_SFN_to_normal`, the terminator with it. -/
def sfnToNormal (e : Entry) : List (BitVec 8) :=
  let base := e.name.takeWhile (· ≠ spaceChar)
  if e.byte 8 ≠ 32 ∧ e.byte 8 ≠ 0 then base ++ dotChar :: e.ext.takeWhile (· ≠ spaceChar) ++ [0] else base ++ [0]

/-- What a call of `fat32_get_dents64` has done so far. -/
structure Listing where
  long : LongName
  ptr : ℕ
  allocatedlimit : ℕ
  entries : List Dirent

/-- The bytes that `dents_add` is given as the name: a short name has its terminator. -/
def listedBytes (long : LongName) (e : Entry) : Exec (List (BitVec 8)) :=
  if 0 ≤ long.lfnLast then long.text
  else
    let normal := sfnToNormal e
    do
    let lfnName ← CString.memcpy long.lfnName 0 normal 0 normal.length
    .ok (lfnName.take normal.length)

def direntType (e : Entry) : ℕ := if e.attrib &&& fatAttribDirectory ≠ 0 then 4 else 8

/-- The entry is added, or there is no space for it. The pointer has 32 bits. -/
def listNode (hardlimit directory i : ℕ) (e : Entry) (s : Listing) : Exec (Round Listing Listing) :=
  if e.isNode then do
    let filename ← listedBytes s.long e
    let d : Dirent := ⟨inodeGen directory (i / 32), direntType e, filename⟩
    if NoSpace hardlimit s.allocatedlimit d.reclen then .ok (.done s)
    else .ok (.next ⟨.cleared, (s.ptr + 32) % 2 ^ 32, s.allocatedlimit + d.reclen, s.entries ++ [d]⟩)
  else .ok (.next { s with ptr := (s.ptr + 32) % 2 ^ 32 })

def listVisit (hardlimit directory : ℕ) (p : ℕ × Entry) (s : Listing) : Exec (Round Listing Listing) := do
  let long ← s.long.noted p.2
  listNode hardlimit directory p.1 p.2 { s with long := long }

def listRound (bytesPerCluster hardlimit : ℕ) :
    Walk Listing → Exec (Round (Walk Listing) (Walk (Round Listing Listing))) :=
  clusterRound (fun s => s.ptr % bytesPerCluster) (listVisit hardlimit)

/-- What the call returns: the bytes in the buffer, or that not even one entry fits. -/
inductive Answer where
  | count (n : ℕ)
  | einval
  deriving DecidableEq, Repr

/-- The place in the directory, in an open descriptor. -/
structure Place where
  ptr : ℕ
  directoryCurr : ℕ
  deriving DecidableEq, Repr

structure Reply where
  answer : Answer
  entries : List Dirent
  deriving DecidableEq, Repr

def replyOf : Walk (Round Listing Listing) → Place × Reply
  | ⟨_, directory, .done s⟩ =>
    (⟨s.ptr, directory⟩, ⟨if s.allocatedlimit = 0 then .einval else .count s.allocatedlimit, s.entries⟩)
  | ⟨_, directory, .next s⟩ => (⟨s.ptr, directory⟩, ⟨.count s.allocatedlimit, s.entries⟩)

/-- `fat32_get_dents64` on a directory, over at most `n` clusters. The remainder of the pointer
needs a cluster of some size. -/
def fat32GetDents64 (n : ℕ) (fat : Fat32) (place : Place) (hardlimit : ℕ) :
    Exec (Option (Fat32 × Place × Reply)) :=
  if place.directoryCurr = 0 then .ok (some (fat, place, ⟨.count 0, []⟩))
  else if fat.bytesPerCluster = 0 then .error .fault
  else do
    match ← run (listRound fat.bytesPerCluster hardlimit) n
      ⟨fat, place.directoryCurr, ⟨.cleared, place.ptr, 0, []⟩⟩ with
    | none => .ok none
    | some w => .ok (some (w.fat, replyOf w))

end DualFuse.Filesystems.Fat32
