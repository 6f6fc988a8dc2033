import DualFuse.Library.Bytes
import DualFuse.Library.Execution
import DualFuse.Utility.Words

/-! Files of a FAT32 volume (`filesystems/fat32/fat32_controller.cpp`, `fat32_fat.cpp`): the
walk along a chain of clusters through the cache of the table, `fat32_read` and
`fat32_seek`. The disk does not change: the volume is read only. The allocator is left out,
except that a block that is given back twice is a fault, as are an index outside an array
and an `int` that overflows. -/

namespace DualFuse.Filesystems

open Library Utility

def sectorSize : ℕ := 512
def fat32CacheMax : ℕ := 32
def fat32CacheBad : ℕ := 0xFFFFFFFF
def fatAttribDirectory : ℕ := 0x10

/-- The mounted volume and its disk. A place of the cache is `cacheBase[i]` with `cache[i]`. -/
structure Fat32 where
  disk : ℕ → BitVec 8
  offsetFats : ℕ
  offsetClusters : ℕ
  sectorsPerCluster : ℕ
  cache : List (ℕ × List (BitVec 8))
  cacheCurr : ℕ

structure Fat32DirectoryEntry where
  attrib : ℕ
  clusterhigh : ℕ
  clusterlow : ℕ
  filesize : ℕ
  deriving DecidableEq, Repr

structure Fat32OpenFd where
  ptr : ℕ
  directoryCurr : ℕ
  dirEnt : Fat32DirectoryEntry
  deriving DecidableEq, Repr

/-- `FAT_COMB_HIGH_LOW`. -/
def Fat32DirectoryEntry.firstCluster (e : Fat32DirectoryEntry) : ℕ := e.clusterhigh <<< 16 ||| e.clusterlow

def Fat32DirectoryEntry.isDirectory (e : Fat32DirectoryEntry) : Bool := e.attrib &&& fatAttribDirectory != 0

namespace Fat32

def getDiskBytes (fat : Fat32) (lba sectorCount : ℕ) : List (BitVec 8) :=
  Bytes.read fat.disk (lba % 2 ^ 32 * sectorSize) (sectorCount * sectorSize)

def bytesPerCluster (fat : Fat32) : ℕ := fat.sectorsPerCluster * sectorSize

/-- `cluster - 2` and the product have 32 bits. -/
def clusterToLba (fat : Fat32) (cluster : ℕ) : ℕ :=
  fat.offsetClusters + (cluster + (2 ^ 32 - 2)) % 2 ^ 32 * fat.sectorsPerCluster % 2 ^ 32

/-- The bytes of the first place of the cache with this sector. -/
def fatCacheLookup (fat : Fat32) (offset : ℕ) : Option (List (BitVec 8)) :=
  (fat.cache.find? fun e => e.1 == offset).map (·.2)

def fatCacheAdd (fat : Fat32) (offset : ℕ) (bytes : List (BitVec 8)) : Fat32 :=
  let curr := if fat.cacheCurr ≥ fat32CacheMax then 0 else fat.cacheCurr
  { fat with cache := fat.cache.set curr (offset, bytes), cacheCurr := curr + 1 }

def fatFetch (fat : Fat32) (offsetSector : ℕ) : Fat32 × List (BitVec 8) :=
  match fat.fatCacheLookup offsetSector with
  | some bytes => (fat, bytes)
  | none =>
    let bytes := fat.getDiskBytes offsetSector 1
    (fat.fatCacheAdd offsetSector bytes, bytes)

/-- What an entry of the table means: the next cluster, or 0 for the end and for a bad one. -/
def nextCluster (entry : ℕ) : ℕ :=
  if entry ≥ 0x0FFFFFF8 then 0 else if entry = 0x0FFFFFF7 then 0 else entry

def fatTraverse (fat : Fat32) (offset : ℕ) : Fat32 × ℕ :=
  let offsetFat := offset * 4 % 2 ^ 32
  let offsetSector := (fat.offsetFats + offsetFat / sectorSize) % 2 ^ 32
  let offsetEntry := offsetFat % sectorSize
  let (fat, bytes) := fat.fatFetch offsetSector
  (fat, nextCluster (Bytes.toNat ((bytes.drop offsetEntry).take 4) &&& 0x0FFFFFFF))

/-- `ret[1]` to `ret[amount]`. -/
def fatChainRest (fat : Fat32) (prev : ℕ) : ℕ → Fat32 × List ℕ
  | 0 => (fat, [])
  | amount + 1 =>
    let (fat, next) := fat.fatTraverse prev
    let (fat, rest) := fat.fatChainRest next amount
    (fat, next :: rest)

/-- `amount + 1` has 32 bits; where it is 0 there is no place for the first cluster. -/
def fatChain (fat : Fat32) (offsetStart amount : ℕ) : Exec (Fat32 × List ℕ) :=
  if (amount + 1) % 2 ^ 32 = 0 then .error .fault
  else
    let (fat, rest) := fat.fatChainRest offsetStart amount
    .ok (fat, offsetStart :: rest)

end Fat32

/-- Where a read has got to; `curr` is the number of bytes in `buff`. -/
structure Fat32Reading where
  ptr : ℕ
  directoryCurr : ℕ
  buff : List (BitVec 8)
  deriving DecidableEq, Repr

namespace Fat32Reading

/-- The loop over the bytes that came from the disk, and whether it was left early. -/
def copy (limit filesize : ℕ) : List (BitVec 8) → Fat32Reading → Exec (Fat32Reading × Bool)
  | [], st => .ok (st, false)
  | x :: bytes, st =>
    if st.buff.length ≥ limit ∨ st.ptr ≥ filesize then .ok (st, true)
    else if st.buff.length + 1 ≥ 2 ^ 31 then .error .fault
    else copy limit filesize bytes { st with ptr := st.ptr + 1, buff := st.buff ++ [x] }

end Fat32Reading

namespace Fat32

/-- One cluster. -/
def readCluster (fat : Fat32) (limit filesize cluster : ℕ) (st : Fat32Reading) : Exec (Fat32Reading × Bool) :=
  let bytes := fat.getDiskBytes (fat.clusterToLba cluster) fat.sectorsPerCluster
  st.copy limit filesize (bytes.drop (st.ptr % fat.bytesPerCluster))

/-- `needed` clusters in a row, from `cluster` on. Where the loop is left early their bytes are
given back twice. -/
def readRun (fat : Fat32) (limit filesize cluster needed : ℕ) (st : Fat32Reading) : Exec (Fat32Reading × Bool) :=
  if needed * fat.bytesPerCluster ≥ 2 ^ 31 then .error .fault
  else do
    let bytes := fat.getDiskBytes (fat.clusterToLba cluster) (needed * fat.sectorsPerCluster)
    let (st, done) ← st.copy limit filesize (bytes.drop (st.ptr % fat.bytesPerCluster))
    if done then .error .fault else .ok (st, false)

end Fat32

/-- `fatLookup[i]`. -/
def fatLookupAt (fatLookup : List ℕ) (i : ℕ) : Exec ℕ :=
  match fatLookup[i]? with
  | none => .error .fault
  | some c => .ok c

/-- The cluster of place `i` is followed by its neighbour, and `i` is not the place taken for
the last one. -/
def joinsNext (fatLookup : List ℕ) (fatLookupsNeeded : ℤ) (i cluster : ℕ) : Exec Bool :=
  if (i : ℤ) = fatLookupsNeeded - 1 then .ok false
  else do
    let next ← fatLookupAt fatLookup (i + 1)
    .ok (next == (cluster + 1) % 2 ^ 32)

namespace Fat32

/-- The loop of `fat32_read` from place `i` on, `k` places before its end. -/
def readLoop (fat : Fat32) (limit filesize : ℕ) (fatLookup : List ℕ) (fatLookupsNeeded : ℤ) :
    (k i : ℕ) → (consecStart : Option ℕ) → Fat32Reading → Exec Fat32Reading
  | 0, _, _, st => .ok st
  | k + 1, i, consecStart, st => do
    let cluster ← fatLookupAt fatLookup i
    if cluster = 0 then .ok st
    else do
      let st := { st with directoryCurr := cluster }
      let joins ← joinsNext fatLookup fatLookupsNeeded i cluster
      match consecStart with
      | none =>
        if joins then fat.readLoop limit filesize fatLookup fatLookupsNeeded k (i + 1) (some i) st
        else do
          let (st, done) ← fat.readCluster limit filesize cluster st
          if done then .ok st
          else fat.readLoop limit filesize fatLookup fatLookupsNeeded k (i + 1) none st
      | some start =>
        if joins then fat.readLoop limit filesize fatLookup fatLookupsNeeded k (i + 1) (some start) st
        else do
          let first ← fatLookupAt fatLookup start
          let (st, done) ← fat.readRun limit filesize first (i - start + 1) st
          if done then .ok st
          else fat.readLoop limit filesize fatLookup fatLookupsNeeded k (i + 1) none st

/-- `fatLookupsNeeded`, an `int`. -/
def lookupsNeeded (fat : Fat32) (limit : ℕ) : ℤ := wrapInt (ceilingDivision limit fat.bytesPerCluster)

def fat32Read (fat : Fat32) (dir : Fat32OpenFd) (limit : ℕ) : Exec (Fat32 × Fat32OpenFd × List (BitVec 8)) :=
  if dir.dirEnt.isDirectory then .ok (fat, dir, [])
  else do
    let fatLookupsNeeded := fat.lookupsNeeded limit
    let (fat, fatLookup) ← fat.fatChain dir.directoryCurr (fatLookupsNeeded % 2 ^ 32).toNat
    if fatLookupsNeeded + 1 ≥ 2 ^ 31 then .error .fault
    else do
      let st ← fat.readLoop limit dir.dirEnt.filesize fatLookup fatLookupsNeeded (fatLookupsNeeded + 1).toNat 0 none
        ⟨dir.ptr, dir.directoryCurr, []⟩
      .ok (fat, { dir with ptr := st.ptr, directoryCurr := st.directoryCurr }, st.buff)

/-- The loop of `fat32_seek`. -/
def skipClusters (fat : Fat32) (directoryCurr : ℕ) : ℕ → Fat32 × ℕ
  | 0 => (fat, directoryCurr)
  | k + 1 =>
    let (fat, next) := fat.fatTraverse directoryCurr
    if next = 0 then (fat, 0) else fat.skipClusters next k

/-- Where a seek starts from: the cluster, and the pointer that belongs to it. -/
def seekFrom (dir : Fat32OpenFd) (target : ℕ) : ℕ × ℤ :=
  let old := wrapInt dir.ptr
  if intToSize old > target then (dir.dirEnt.firstCluster, 0) else (dir.directoryCurr, old)

/-- The walk to the cluster of the target. -/
def seekTo (fat : Fat32) (dir : Fat32OpenFd) (target : ℕ) : Fat32 × ℕ :=
  let toBeSkipped := wrapInt (target / fat.bytesPerCluster : ℕ)
  let alreadySkipped := (seekFrom dir target).2 / fat.bytesPerCluster
  fat.skipClusters (seekFrom dir target).1 (toBeSkipped - alreadySkipped).toNat

/-- `SEEK_CURR` counts from the pointer. -/
def seekTarget (dir : Fat32OpenFd) (target : ℕ) (current : Bool) : ℕ :=
  if current then wrap (target + dir.ptr) else target

/-- Without a result the call returns `-EINVAL`. -/
def fat32Seek (fat : Fat32) (dir : Fat32OpenFd) (target : ℕ) (current : Bool) : Fat32 × Fat32OpenFd × Option ℕ :=
  let target := seekTarget dir target current
  if dir.dirEnt.isDirectory then (fat, dir, none)
  else if target > dir.dirEnt.filesize then (fat, dir, none)
  else
    let reached := fat.seekTo dir target
    (reached.1, { dir with ptr := target, directoryCurr := reached.2 }, some target)

/-! ### The table and its cache -/

/-- The entry of a cluster, as it is on the disk. -/
def fatEntry (fat : Fat32) (c : ℕ) : ℕ :=
  Bytes.readNat fat.disk (fat.offsetFats * sectorSize + c * 4) 4 &&& 0x0FFFFFFF

/-- Only the cache may differ. -/
structure SameVolume (fat fat' : Fat32) : Prop where
  disk : fat'.disk = fat.disk
  offsetFats : fat'.offsetFats = fat.offsetFats
  offsetClusters : fat'.offsetClusters = fat.offsetClusters
  sectorsPerCluster : fat'.sectorsPerCluster = fat.sectorsPerCluster

theorem SameVolume.refl (fat : Fat32) : SameVolume fat fat := ⟨rfl, rfl, rfl, rfl⟩

theorem SameVolume.trans {f₁ f₂ f₃ : Fat32} (h : SameVolume f₁ f₂) (h' : SameVolume f₂ f₃) : SameVolume f₁ f₃ :=
  ⟨h'.disk.trans h.disk, h'.offsetFats.trans h.offsetFats, h'.offsetClusters.trans h.offsetClusters,
    h'.sectorsPerCluster.trans h.sectorsPerCluster⟩

theorem SameVolume.bytesPerCluster {fat fat' : Fat32} (h : SameVolume fat fat') :
    fat'.bytesPerCluster = fat.bytesPerCluster := by
  unfold Fat32.bytesPerCluster
  rw [h.sectorsPerCluster]

/-- Every place of the cache that is in use has the bytes of its sector. -/
def CacheSound (fat : Fat32) : Prop :=
  ∀ e ∈ fat.cache, e.1 ≠ fat32CacheBad → e.2 = fat.getDiskBytes e.1 1

/-- What a walk along the table keeps. -/
def Walked (fat fat' : Fat32) : Prop := CacheSound fat' ∧ SameVolume fat fat'

variable {fat fat' : Fat32} {c k : ℕ}

theorem Walked.trans {f₁ f₂ f₃ : Fat32} (h : Walked f₁ f₂) (h' : Walked f₂ f₃) : Walked f₁ f₃ :=
  ⟨h'.1, h.2.trans h'.2⟩

theorem SameVolume.getDiskBytes (h : SameVolume fat fat') (lba n : ℕ) :
    fat'.getDiskBytes lba n = fat.getDiskBytes lba n := by
  unfold Fat32.getDiskBytes
  rw [h.disk]

theorem SameVolume.fatEntry (h : SameVolume fat fat') (c : ℕ) : fat'.fatEntry c = fat.fatEntry c := by
  unfold Fat32.fatEntry
  rw [h.disk, h.offsetFats]

theorem fatFetch_walked (h : CacheSound fat) (offset : ℕ) : Walked fat (fat.fatFetch offset).1 := by
  unfold fatFetch
  cases hfind : fat.fatCacheLookup offset with
  | some bytes => exact ⟨h, .refl fat⟩
  | none =>
    refine ⟨fun e he hbad => ?_, ⟨rfl, rfl, rfl, rfl⟩⟩
    rcases List.mem_or_eq_of_mem_set he with he | rfl
    · exact h e he hbad
    · simp only [getDiskBytes, fatCacheAdd]

theorem fatFetch_bytes (h : CacheSound fat) {offset : ℕ} (hbad : offset ≠ fat32CacheBad) :
    (fat.fatFetch offset).2 = fat.getDiskBytes offset 1 := by
  unfold fatFetch
  cases hfind : fat.fatCacheLookup offset with
  | some bytes =>
    obtain ⟨e, he, rfl⟩ := Option.map_eq_some_iff.mp hfind
    have hbase : e.1 = offset := by simpa using List.find?_some he
    rw [← hbase] at hbad ⊢
    exact h e (List.mem_of_find?_eq_some he) hbad
  | none => simp only

theorem fatTraverse_walked (h : CacheSound fat) (c : ℕ) : Walked fat (fat.fatTraverse c).1 := fatFetch_walked h _

theorem fatTraverse_next (h : CacheSound fat) (hc : c * 4 < 2 ^ 32)
    (hplace : fat.offsetFats + c * 4 / sectorSize < fat32CacheBad) :
    (fat.fatTraverse c).2 = nextCluster (fat.fatEntry c) := by
  have hsector : (fat.offsetFats + c * 4 / sectorSize) % 2 ^ 32 = fat.offsetFats + c * 4 / sectorSize :=
    Nat.mod_eq_of_lt (hplace.trans (by decide))
  have hbyte : (fat.offsetFats + c * 4 / sectorSize) * sectorSize + c * 4 % sectorSize =
      fat.offsetFats * sectorSize + c * 4 := by
    simp only [sectorSize]
    omega
  simp only [fatTraverse, Nat.mod_eq_of_lt hc, hsector]
  rw [fatFetch_bytes h hplace.ne, getDiskBytes, Bytes.take_drop_read (by simp only [sectorSize]; omega),
    hsector, hbyte, fatEntry, Bytes.readNat]

/-! ### Files -/

/-- A file with a well-formed chain: its clusters are linked in the table, the last one has
the end mark, they lie on a disk of at most `2 ^ 32` sectors behind the table, and they
hold the file. -/
structure IsFile (fat : Fat32) (e : Fat32DirectoryEntry) (chain : List ℕ) : Prop where
  regular : e.isDirectory = false
  cluster_pos : 0 < fat.sectorsPerCluster
  cluster_lt : fat.sectorsPerCluster < 2 ^ 8
  first : e.firstCluster = chain.headD 0
  clusters : ∀ c ∈ chain, 2 ≤ c ∧ c < 0x0FFFFFF7
  linked : ∀ i c d, chain[i]? = some c → chain[i + 1]? = some d → fat.fatEntry c = d
  ended : ∀ c, chain.getLast? = some c → fat.fatEntry c ≥ 0x0FFFFFF8
  table : ∀ c ∈ chain, fat.offsetFats + c * 4 / sectorSize < fat32CacheBad
  data : ∀ c ∈ chain, fat.offsetClusters + (c - 1) * fat.sectorsPerCluster ≤ 2 ^ 32
  filesize_le : e.filesize ≤ chain.length * fat.bytesPerCluster
  filesize_lt : e.filesize < 2 ^ 32

variable {e : Fat32DirectoryEntry} {chain : List ℕ}

theorem IsFile.sameVolume (h : IsFile fat e chain) (hsame : SameVolume fat fat') : IsFile fat' e chain where
  regular := h.regular
  cluster_pos := by rw [hsame.sectorsPerCluster]; exact h.cluster_pos
  cluster_lt := by rw [hsame.sectorsPerCluster]; exact h.cluster_lt
  first := h.first
  clusters := h.clusters
  linked := by simp only [hsame.fatEntry]; exact h.linked
  ended := by simp only [hsame.fatEntry]; exact h.ended
  table := by rw [hsame.offsetFats]; exact h.table
  data := by rw [hsame.offsetClusters, hsame.sectorsPerCluster]; exact h.data
  filesize_le := by
    unfold bytesPerCluster
    rw [hsame.sectorsPerCluster]
    exact h.filesize_le
  filesize_lt := h.filesize_lt

theorem IsFile.bytesPerCluster_pos (h : IsFile fat e chain) : 0 < fat.bytesPerCluster :=
  Nat.mul_pos h.cluster_pos (by decide)

/-- The walk from a cluster of the chain leads to the next one, and from the last one to 0. -/
theorem IsFile.fatTraverse_eq (h : IsFile fat e chain) (hcache : CacheSound fat) (hk : chain[k]? = some c) :
    (fat.fatTraverse c).2 = chain.getD (k + 1) 0 := by
  have hmem := List.mem_of_getElem? hk
  have hlt := (h.clusters c hmem).2
  rw [fatTraverse_next hcache (by omega) (h.table c hmem)]
  cases hnext : chain[k + 1]? with
  | some d =>
    have hd := (h.clusters d (List.mem_of_getElem? hnext)).2
    rw [h.linked k c d hk hnext, List.getD_eq_getElem?_getD, hnext, nextCluster, if_neg (by omega),
      if_neg (by omega), Option.getD_some]
  | none =>
    have hlast : chain.getLast? = some c := by
      rw [List.getLast?_eq_getElem?, ← hk]
      have := List.getElem?_eq_none_iff.mp hnext
      have := (List.getElem?_eq_some_iff.mp hk).1
      congr 1
      omega
    rw [List.getD_eq_getElem?_getD, hnext, nextCluster, if_pos (h.ended c hlast), Option.getD_none]

theorem fatChainRest_walked (h : CacheSound fat) (prev amount : ℕ) :
    Walked fat (fat.fatChainRest prev amount).1 := by
  induction amount generalizing fat prev with
  | zero => exact ⟨h, .refl fat⟩
  | succ amount ih =>
    have hstep := fatTraverse_walked h prev
    exact hstep.trans (ih hstep.1 _)

@[simp] theorem length_fatChainRest (prev amount : ℕ) : (fat.fatChainRest prev amount).2.length = amount := by
  induction amount generalizing fat prev with
  | zero => rfl
  | succ amount ih => simp [fatChainRest, ih]

/-- What follows a cluster of the chain, up to and with the 0 behind the last one. -/
theorem IsFile.fatChainRest_getElem? (h : IsFile fat e chain) (hcache : CacheSound fat) {i amount : ℕ}
    (hk : chain[k]? = some c) (hi : i < amount) (hlen : k + 1 + i ≤ chain.length) :
    (fat.fatChainRest c amount).2[i]? = some (chain.getD (k + 1 + i) 0) := by
  induction amount generalizing fat c k i with
  | zero => omega
  | succ amount ih =>
    have hnext := h.fatTraverse_eq hcache hk
    have hwalked := fatTraverse_walked hcache c
    cases i with
    | zero => simp [fatChainRest, hnext]
    | succ i =>
      have hk' : chain[k + 1]? = some (fat.fatTraverse c).2 := by
        rw [hnext, List.getD_eq_getElem?_getD, List.getElem?_eq_getElem (by omega), Option.getD_some]
      have := ih (h.sameVolume hwalked.2) hwalked.1 hk' (show i < amount by omega) (by omega)
      simp only [fatChainRest, List.getElem?_cons_succ]
      rw [this]
      congr 2
      omega

/-- Seeking along the chain. -/
theorem IsFile.skipClusters_eq (h : IsFile fat e chain) (hcache : CacheSound fat) {n : ℕ} (hk : chain[k]? = some c)
    (hn : k + n ≤ chain.length) :
    (fat.skipClusters c n).2 = chain.getD (k + n) 0 ∧ Walked fat (fat.skipClusters c n).1 := by
  induction n generalizing fat c k with
  | zero =>
    refine ⟨?_, hcache, .refl fat⟩
    rw [skipClusters, Nat.add_zero, List.getD_eq_getElem?_getD, hk, Option.getD_some]
  | succ n ih =>
    have hnext := h.fatTraverse_eq hcache hk
    have hwalked := fatTraverse_walked hcache c
    simp only [skipClusters]
    split_ifs with hzero
    · have hend : chain[k + 1]? = none := by
        cases hd : chain[k + 1]? with
        | none => rfl
        | some d =>
          rw [hnext, List.getD_eq_getElem?_getD, hd, Option.getD_some] at hzero
          have := (h.clusters d (List.mem_of_getElem? hd)).1
          omega
      have := List.getElem?_eq_none_iff.mp hend
      exact ⟨by rw [List.getD_eq_getElem?_getD, List.getElem?_eq_none (by omega), Option.getD_none], hwalked⟩
    · have hk' : chain[k + 1]? = some (fat.fatTraverse c).2 := by
        rw [hnext, List.getD_eq_getElem?_getD] at hzero ⊢
        cases hd : chain[k + 1]? with
        | none => simp [hd] at hzero
        | some d => rfl
      obtain ⟨heq, hrest⟩ := ih (h.sameVolume hwalked.2) hwalked.1 hk' (by omega)
      exact ⟨by rw [heq]; congr 1; omega, hwalked.trans hrest⟩

end Fat32

end DualFuse.Filesystems
