import DualFuse.Filesystems.Fat32
import DualFuse.Library.RingCache

/-! The cache of the file allocation table (`fat32_mount` of `fat32_controller.cpp` and
`fat32_fat.cpp`). Walking along the table through the cache gives what the sectors on the
disk say. The mark of a place that is not in use is the number of a sector as well, and
before all places are in use this sector is found in the cache, empty. -/

namespace DualFuse.Filesystems.Fat32

open Library

/-- A field of the boot sector. -/
def bootField (disk : ℕ → BitVec 8) (lba offset n : ℕ) : ℕ := Bytes.readNat disk (lba * sectorSize + offset) n

/-- The partition begins at sector `lbaFirstSector`. -/
def fat32Mount (disk : ℕ → BitVec 8) (lbaFirstSector : ℕ) : Exec Fat32 :=
  let field := bootField disk lbaFirstSector
  if field 11 2 ≠ sectorSize then .error .halt
  else
    let offsetFats := lbaFirstSector + field 14 2
    .ok
      { disk := disk
        offsetFats := offsetFats
        offsetClusters := offsetFats + field 16 1 * field 36 4 % 2 ^ 32
        sectorsPerCluster := field 13 1
        cache := List.replicate fat32CacheMax (fat32CacheBad, List.replicate (field 13 1 * sectorSize) 0)
        cacheCurr := 0 }

/-- Walks from one cluster each. -/
def fatTraverses (fat : Fat32) : List ℕ → Fat32 × List ℕ
  | [] => (fat, [])
  | c :: calls =>
    let (fat, next) := fat.fatTraverse c
    let (fat, rest) := fat.fatTraverses calls
    (fat, next :: rest)

/-! ### What is on the disk -/

/-- The sector of the table that has the entry of a cluster. -/
def fatSector (fat : Fat32) (c : ℕ) : ℕ := (fat.offsetFats + c * 4 % 2 ^ 32 / sectorSize) % 2 ^ 32

/-- What an entry in the bytes of its sector says. -/
def entryIn (bytes : List (BitVec 8)) (c : ℕ) : ℕ :=
  nextCluster (Bytes.toNat ((bytes.drop (c * 4 % 2 ^ 32 % sectorSize)).take 4) &&& 0x0FFFFFFF)

def readSector (fat : Fat32) (sector : ℕ) : List (BitVec 8) := fat.getDiskBytes sector 1

/-- The walk without the cache. -/
def fatDirect (fat : Fat32) (c : ℕ) : ℕ := entryIn (fat.readSector (fat.fatSector c)) c

/-- The sectors that some walks read, but for the one whose number is the mark. -/
def sectorsOf (fat : Fat32) (calls : List ℕ) : Finset ℕ := (calls.map fat.fatSector).toFinset.erase fat32CacheBad

/-! ### The cache as a ring -/

def ring (fat : Fat32) : RingCache ℕ (List (BitVec 8)) := ⟨fat.cache, fat.cacheCurr⟩

/-- The cache of a volume after the sectors in `used` were read. -/
structure Cached (volume fat : Fat32) (used : Finset ℕ) : Prop where
  same : SameVolume volume fat
  holds : RingCache.Holds fat32CacheMax volume.readSector fat32CacheBad (List.replicate volume.bytesPerCluster 0)
    fat.ring used

variable {volume fat : Fat32} {used : Finset ℕ}

theorem fatFetch_ring (fat : Fat32) (sector : ℕ) :
    (fat.fatFetch sector).1.ring = (fat.ring.fetch fat32CacheMax fat.readSector sector).1 ∧
      (fat.fatFetch sector).2 = (fat.ring.fetch fat32CacheMax fat.readSector sector).2 ∧
        SameVolume fat (fat.fatFetch sector).1 := by
  have hlookup : fat.ring.lookup sector = fat.fatCacheLookup sector := rfl
  unfold fatFetch RingCache.fetch
  rw [hlookup]
  cases fat.fatCacheLookup sector with
  | some bytes => exact ⟨rfl, rfl, .refl fat⟩
  | none => exact ⟨rfl, rfl, rfl, rfl, rfl, rfl⟩

theorem SameVolume.readSector (h : SameVolume volume fat) : fat.readSector = volume.readSector :=
  funext fun sector => h.getDiskBytes sector 1

theorem SameVolume.fatSector (h : SameVolume volume fat) : fat.fatSector = volume.fatSector := by
  funext c
  unfold Fat32.fatSector
  rw [h.offsetFats]

theorem entryIn_zeros (n c : ℕ) : entryIn (List.replicate n 0) c = 0 := by
  have hzero : ∀ m, Bytes.toNat (List.replicate m 0) = 0 := by
    intro m
    induction m with
    | zero => rfl
    | succ m ih =>
      rw [List.replicate_succ, Bytes.toNat, ih]
      rfl
  rw [entryIn, List.drop_replicate, List.take_replicate, hzero]
  rfl

/-- A walk through the cache is a fetch from the ring. -/
theorem fatTraverse_ring (fat : Fat32) (c : ℕ) :
    (fat.fatTraverse c).1.ring = (fat.ring.fetch fat32CacheMax fat.readSector (fat.fatSector c)).1 ∧
      (fat.fatTraverse c).2 = entryIn (fat.ring.fetch fat32CacheMax fat.readSector (fat.fatSector c)).2 c ∧
        SameVolume fat (fat.fatTraverse c).1 := by
  obtain ⟨hring, hbytes, hsame⟩ := fat.fatFetch_ring (fat.fatSector c)
  exact ⟨hring, congrArg (entryIn · c) hbytes, hsame⟩

theorem sectorsOf_cons (fat : Fat32) (c : ℕ) (calls : List ℕ) :
    fat.sectorsOf (c :: calls) =
      if fat.fatSector c = fat32CacheBad then fat.sectorsOf calls
        else insert (fat.fatSector c) (fat.sectorsOf calls) := by
  unfold sectorsOf
  rw [List.map_cons, List.toFinset_cons]
  split_ifs with hbad
  · rw [hbad, Finset.erase_insert_eq_erase]
  · rw [Finset.erase_insert_of_ne hbad]

/-- What one walk gives: the empty entry of an unused place, or the one on the disk. -/
theorem Cached.fatTraverse (h : Cached volume fat used) (c : ℕ) :
    Cached volume (fat.fatTraverse c).1
        (if volume.fatSector c = fat32CacheBad then used else insert (volume.fatSector c) used) ∧
      (fat.fatTraverse c).2 =
        if volume.fatSector c = fat32CacheBad ∧ used.card < fat32CacheMax then 0 else volume.fatDirect c := by
  obtain ⟨hring, hnext, hsame⟩ := fat.fatTraverse_ring c
  rw [h.same.readSector, h.same.fatSector] at hring hnext
  obtain ⟨hholds, hbytes⟩ := h.holds.fetch (volume.fatSector c)
  rw [← hring] at hholds
  refine ⟨⟨h.same.trans hsame, hholds⟩, ?_⟩
  rw [hnext, hbytes]
  split_ifs
  · exact entryIn_zeros _ c
  · rfl

/-- The walk finds what is on the disk. -/
def Answered (fat : Fat32) (used : Finset ℕ) (c : ℕ) : Prop :=
  fat.fatSector c = fat32CacheBad → fat.fatDirect c = 0 ∨ fat32CacheMax ≤ used.card

theorem Cached.next_eq_iff (h : Cached volume fat used) (c : ℕ) :
    (fat.fatTraverse c).2 = volume.fatDirect c ↔ volume.Answered used c := by
  rw [(h.fatTraverse c).2]
  unfold Answered
  split_ifs with hblank
  · rw [eq_comm]
    constructor
    · exact fun hzero _ => Or.inl hzero
    · exact fun hanswered => (hanswered hblank.1).resolve_right (not_le.mpr hblank.2)
  · refine iff_of_true rfl fun hbad => Or.inr ?_
    exact not_lt.mp fun hroom => hblank ⟨hbad, hroom⟩

theorem sectorsOf_cons_union (fat : Fat32) (c : ℕ) (calls : List ℕ) (used : Finset ℕ) :
    fat.sectorsOf (c :: calls) ∪ used = fat.sectorsOf calls ∪
      (if fat.fatSector c = fat32CacheBad then used else insert (fat.fatSector c) used) := by
  rw [sectorsOf_cons]
  split_ifs
  · rfl
  · rw [Finset.insert_union, Finset.union_insert]

/-- A run of walks, from a cache in use. -/
theorem Cached.calls_eq_iff (h : Cached volume fat used) (calls : List ℕ) :
    (fat.fatTraverses calls).2 = calls.map volume.fatDirect ↔
      ∀ before c after, calls = before ++ c :: after → volume.Answered (volume.sectorsOf before ∪ used) c := by
  induction calls generalizing fat used with
  | nil =>
    refine iff_of_true rfl fun before c after heq => ?_
    simp at heq
  | cons c calls ih =>
    have hrest := ih (h.fatTraverse c).1
    have hcons : (fat.fatTraverses (c :: calls)).2 = (c :: calls).map volume.fatDirect ↔
        (fat.fatTraverse c).2 = volume.fatDirect c ∧
          ((fat.fatTraverse c).1.fatTraverses calls).2 = calls.map volume.fatDirect := by
      rw [List.map_cons, ← List.cons.injEq]
      rfl
    rw [hcons, h.next_eq_iff, hrest]
    constructor
    · rintro ⟨hfirst, hlater⟩ before c' after heq
      cases before with
      | nil =>
        obtain ⟨rfl, -⟩ := List.cons.inj heq
        exact (Finset.empty_union used).symm ▸ hfirst
      | cons b before =>
        obtain ⟨rfl, hcalls⟩ := List.cons.inj heq
        rw [sectorsOf_cons_union]
        exact hlater before c' after hcalls
    · intro hall
      constructor
      · have hfirst := hall [] c calls rfl
        exact (Finset.empty_union used) ▸ hfirst
      · intro before c' after heq
        rw [← sectorsOf_cons_union]
        exact hall (c :: before) c' after (by rw [heq]; rfl)

theorem mounted_cached {disk : ℕ → BitVec 8} {lba : ℕ} (h : fat32Mount disk lba = .ok fat) : Cached fat fat ∅ := by
  unfold fat32Mount at h
  dsimp only at h
  split_ifs at h
  cases h
  exact ⟨.refl _, RingCache.holds_empty (by decide)⟩

/-- A partition with the table in its second sector, where cluster 3 leads to cluster 5. -/
def sampleDisk (lba i : ℕ) : BitVec 8 :=
  if i = lba * 512 + 12 then 2 else if i = lba * 512 + 13 then 1 else if i = lba * 512 + 14 then 1
  else if i = lba * 512 + 524 then 5 else 0

def sampleFat (lba : ℕ) : Fat32 where
  disk := sampleDisk lba
  offsetFats := lba + 1
  offsetClusters := lba + 1
  sectorsPerCluster := 1
  cache := List.replicate 32 (0xFFFFFFFF, List.replicate 512 0)
  cacheCurr := 0

theorem sample_mounted : fat32Mount (sampleDisk 0) 0 = .ok (sampleFat 0) := by
  rfl

theorem late_sample_mounted : fat32Mount (sampleDisk 0xFFFFFFFE) 0xFFFFFFFE = .ok (sampleFat 0xFFFFFFFE) := by
  rfl

end DualFuse.Filesystems.Fat32
