import Mathlib.Data.List.GetD
import DualFuse.Filesystems.Fat32

/-! Reads and seeks of one file of a FAT32 volume. The loop of `fat32_read` takes the clusters
in blocks: a cluster alone, or a run of neighbours. Its invariant says what was copied up to
the block that is open, and which cluster that block starts with. -/

namespace DualFuse.Filesystems.Fat32

open Library Utility

/-- The byte at place `q` of the file with this chain. -/
def fileByte (fat : Fat32) (chain : List ℕ) (q : ℕ) : BitVec 8 :=
  fat.disk ((fat.offsetClusters + (chain.getD (q / fat.bytesPerCluster) 0 - 2) * fat.sectorsPerCluster) * sectorSize +
    q % fat.bytesPerCluster)

def fileBytes (fat : Fat32) (chain : List ℕ) (p n : ℕ) : List (BitVec 8) :=
  (List.range n).map fun i => fat.fileByte chain (p + i)

/-- The cluster of place `j` of the chain is followed by its neighbour. -/
def Joined (chain : List ℕ) (j : ℕ) : Prop := j + 1 < chain.length ∧ chain.getD (j + 1) 0 = chain.getD j 0 + 1

instance (chain : List ℕ) (j : ℕ) : Decidable (Joined chain j) := instDecidableAnd

variable {fat : Fat32} {e : Fat32DirectoryEntry} {chain : List ℕ}

section Bytes

@[simp] theorem length_fileBytes (p n : ℕ) : (fat.fileBytes chain p n).length = n := by simp [fileBytes]

theorem fileBytes_append (p m n : ℕ) :
    fat.fileBytes chain p m ++ fat.fileBytes chain (p + m) n = fat.fileBytes chain p (m + n) := by
  simp [fileBytes, List.range_add, Nat.add_assoc]

theorem drop_fileBytes (p n d : ℕ) : (fat.fileBytes chain p n).drop d = fat.fileBytes chain (p + d) (n - d) := by
  refine List.ext_getElem (by simp) fun i h₁ h₂ => ?_
  simp [fileBytes, Nat.add_assoc]

theorem take_fileBytes {p n m : ℕ} (h : m ≤ n) : (fat.fileBytes chain p n).take m = fat.fileBytes chain p m := by
  refine List.ext_getElem (by simp [h]) fun i h₁ h₂ => ?_
  simp [fileBytes]

theorem IsFile.clusterToLba_eq (h : IsFile fat e chain) {c : ℕ} (hc : c ∈ chain) :
    fat.clusterToLba c % 2 ^ 32 = fat.offsetClusters + (c - 2) * fat.sectorsPerCluster := by
  have hrange := h.clusters c hc
  have hdata := h.data c hc
  have hpos := h.cluster_pos
  obtain ⟨d, rfl⟩ : ∃ d, c = d + 2 := ⟨c - 2, by omega⟩
  have hsucc : (d + 2 - 1) * fat.sectorsPerCluster = d * fat.sectorsPerCluster + fat.sectorsPerCluster :=
    Nat.succ_mul d _
  rw [hsucc] at hdata
  have hsub : (d + 2 + (2 ^ 32 - 2)) % 2 ^ 32 = d := by omega
  unfold clusterToLba
  rw [hsub, Nat.mod_eq_of_lt (by omega), Nat.mod_eq_of_lt (by omega)]
  rfl

/-- Neighbours on the disk are neighbours in the file: a run is read at once. -/
theorem IsFile.getDiskBytes_eq (h : IsFile fat e chain) {a needed : ℕ} (ha : a < chain.length)
    (hrun : ∀ t < needed, chain.getD (a + t) 0 = chain.getD a 0 + t) :
    fat.getDiskBytes (fat.clusterToLba (chain.getD a 0)) (needed * fat.sectorsPerCluster) =
      fat.fileBytes chain (a * fat.bytesPerCluster) (needed * fat.bytesPerCluster) := by
  have hB := h.bytesPerCluster_pos
  have hmem : chain.getD a 0 ∈ chain := by
    rw [List.getD_eq_getElem _ _ ha]
    exact List.getElem_mem ha
  have htwo := (h.clusters _ hmem).1
  rw [getDiskBytes, h.clusterToLba_eq hmem, Nat.mul_assoc needed]
  refine List.ext_getElem (by simp [bytesPerCluster]) fun i h₁ h₂ => ?_
  have hi : i < needed * fat.bytesPerCluster := by simpa using h₂
  have hdiv : (a * fat.bytesPerCluster + i) / fat.bytesPerCluster = a + i / fat.bytesPerCluster := by
    rw [Nat.add_comm, Nat.add_mul_div_right _ _ hB, Nat.add_comm]
  have hmod : (a * fat.bytesPerCluster + i) % fat.bytesPerCluster = i % fat.bytesPerCluster := by
    rw [Nat.add_comm, Nat.add_mul_mod_self_right]
  have hcluster := hrun (i / fat.bytesPerCluster) (Nat.div_lt_of_lt_mul (by rwa [Nat.mul_comm]))
  simp only [Bytes.read, fileBytes, fileByte, List.getElem_map, List.getElem_range, hdiv, hmod, hcluster]
  refine congrArg fat.disk ?_
  have hsplit : (chain.getD a 0 + i / fat.bytesPerCluster - 2) * fat.sectorsPerCluster =
      (chain.getD a 0 - 2) * fat.sectorsPerCluster + i / fat.bytesPerCluster * fat.sectorsPerCluster := by
    rw [← Nat.add_mul, Nat.sub_add_comm htwo]
  have hparts : i / fat.bytesPerCluster * fat.sectorsPerCluster * sectorSize + i % fat.bytesPerCluster = i := by
    rw [Nat.mul_assoc]
    exact Nat.div_add_mod' i _
  rw [hsplit, ← Nat.add_assoc, Nat.add_mul _ (i / fat.bytesPerCluster * fat.sectorsPerCluster), Nat.add_assoc, hparts]

end Bytes

/-- The loop over the bytes takes as many as there are, as the caller wants and as the file
has. -/
theorem copy_eq {limit filesize : ℕ} {bytes : List (BitVec 8)} {st : Fat32Reading} {m : ℕ}
    (hm : m = min bytes.length (min (limit - st.buff.length) (filesize - st.ptr)))
    (hsmall : st.buff.length + m < 2 ^ 31) :
    st.copy limit filesize bytes =
      .ok ({ st with ptr := st.ptr + m, buff := st.buff ++ bytes.take m }, decide (m < bytes.length)) := by
  induction bytes generalizing st m with
  | nil =>
    obtain rfl : m = 0 := by simpa using hm
    simp [Fat32Reading.copy]
  | cons x bytes ih =>
    rw [Fat32Reading.copy]
    split_ifs with hstop hbig
    · obtain rfl : m = 0 := by omega
      simp
    · rw [List.length_cons] at hm
      omega
    · rw [List.length_cons] at hm
      obtain ⟨m, rfl⟩ : ∃ m', m = m' + 1 := ⟨m - 1, by omega⟩
      rw [ih (m := m) (by simp; omega) (by simp; omega)]
      simp [Nat.add_assoc, Nat.add_comm 1 m]

/-- What a read at place `p` gets. -/
def wanted (limit filesize p : ℕ) : ℕ := min limit (filesize - p)

/-- The clusters that hold `limit` bytes from the start of a cluster on. -/
def lookups (fat : Fat32) (limit : ℕ) : ℕ := (limit + fat.bytesPerCluster - 1) / fat.bytesPerCluster

/-- The current cluster belongs to the pointer, wherever that is inside the chain. -/
structure Placed (fat : Fat32) (chain : List ℕ) (ptr directoryCurr : ℕ) : Prop where
  inside : ∀ c, chain[ptr / fat.bytesPerCluster]? = some c → directoryCurr = c
  behind : chain.length ≤ ptr / fat.bytesPerCluster → directoryCurr = 0 ∨ chain.getLast? = some directoryCurr

section Loop
variable {limit filesize p n : ℕ}

/-- The loop neither looks behind the `n + 1` clusters it has, nor leaves the bytes of a run
early, nor counts past an `int`. -/
structure LoopFits (fat : Fat32) (chain : List ℕ) (limit filesize p n : ℕ) : Prop where
  pos : 0 < n
  limit_le : limit ≤ n * fat.bytesPerCluster
  space : min n (chain.length - p / fat.bytesPerCluster) * fat.bytesPerCluster < 2 ^ 31
  inside : wanted limit filesize p < n * fat.bytesPerCluster - p % fat.bytesPerCluster ∨
    chain.length ≤ p / fat.bytesPerCluster + n
  apart : ∀ j < chain.length, p / fat.bytesPerCluster ≤ j → j + 1 < p / fat.bytesPerCluster + n → Joined chain j →
    (p + wanted limit filesize p) / fat.bytesPerCluster ≠ j ∧
      (p + wanted limit filesize p) / fat.bytesPerCluster ≠ j + 1

/-- Everything before the block that starts at place `a` of the lookups is copied. -/
structure AtBlock (fat : Fat32) (chain : List ℕ) (limit filesize p a : ℕ) (st : Fat32Reading) : Prop where
  ptr : st.ptr = max p ((p / fat.bytesPerCluster + a) * fat.bytesPerCluster)
  ptr_le : st.ptr ≤ p + wanted limit filesize p
  buff : st.buff = fat.fileBytes chain p (st.ptr - p)

/-- Everything the call gets is copied. -/
structure Finished (fat : Fat32) (chain : List ℕ) (limit filesize p : ℕ) (st : Fat32Reading) : Prop where
  ptr : st.ptr = p + wanted limit filesize p
  buff : st.buff = fat.fileBytes chain p (wanted limit filesize p)
  placed : fat.Placed chain st.ptr st.directoryCurr

variable {a i : ℕ} {st : Fat32Reading}

theorem AtBlock.ptr_div (hB : 0 < fat.bytesPerCluster) (h : AtBlock fat chain limit filesize p a st) :
    st.ptr / fat.bytesPerCluster = p / fat.bytesPerCluster + a := by
  rw [h.ptr]
  have hmod := Nat.mod_lt p hB
  have hp := Nat.div_add_mod' p fat.bytesPerCluster
  rw [Nat.add_mul]
  rcases Nat.eq_zero_or_pos a with rfl | ha
  · rw [Nat.zero_mul, Nat.add_zero, Nat.add_zero, max_eq_left (by omega)]
  · have hle : fat.bytesPerCluster ≤ a * fat.bytesPerCluster := Nat.le_mul_of_pos_left _ ha
    rw [max_eq_right (by omega), ← Nat.add_mul, Nat.mul_div_cancel _ hB]

/-- The bytes of a block from the pointer on. -/
theorem AtBlock.copy_eq (hfile : IsFile fat e chain) (hfits : LoopFits fat chain limit e.filesize p n)
    (h : AtBlock fat chain limit e.filesize p a st) (hp : p ≤ e.filesize) (hai : a ≤ i)
    {m : ℕ} (hm : m = min ((p / fat.bytesPerCluster + i + 1) * fat.bytesPerCluster) (p + wanted limit e.filesize p)) :
    st.copy limit e.filesize ((fat.fileBytes chain ((p / fat.bytesPerCluster + a) * fat.bytesPerCluster)
      ((i - a + 1) * fat.bytesPerCluster)).drop (st.ptr % fat.bytesPerCluster)) =
      .ok ({ st with ptr := m, buff := fat.fileBytes chain p (m - p) },
        decide (p + wanted limit e.filesize p < (p / fat.bytesPerCluster + i + 1) * fat.bytesPerCluster)) := by
  have hB := hfile.bytesPerCluster_pos
  have hdiv := h.ptr_div hB
  have hptr := Nat.div_add_mod' st.ptr fat.bytesPerCluster
  have hmod := Nat.mod_lt st.ptr hB
  have hpdiv := Nat.div_add_mod' p fat.bytesPerCluster
  rw [hdiv] at hptr
  have hle := h.ptr_le
  have hge : p ≤ st.ptr := by
    rw [h.ptr]
    exact le_max_left _ _
  have hend : (p / fat.bytesPerCluster + i + 1) * fat.bytesPerCluster =
      (p / fat.bytesPerCluster + a) * fat.bytesPerCluster + (i - a + 1) * fat.bytesPerCluster := by
    rw [← Nat.add_mul]
    congr 1
    omega
  have hblock : fat.bytesPerCluster ≤ (i - a + 1) * fat.bytesPerCluster := Nat.le_mul_of_pos_left _ (by omega)
  have hsize := hfile.filesize_le
  have hwanted : wanted limit e.filesize p < 2 ^ 31 := by
    refine lt_of_le_of_lt ?_ hfits.space
    unfold wanted
    rw [← Nat.mul_min_mul_right, Nat.sub_mul]
    have := hfits.limit_le
    omega
  have hbuff : st.buff.length = st.ptr - p := by rw [h.buff, length_fileBytes]
  rw [drop_fileBytes, hptr, Fat32.copy_eq (m := m - st.ptr)]
  · rw [take_fileBytes (by omega), h.buff]
    have hstart : fat.fileBytes chain st.ptr (m - st.ptr) = fat.fileBytes chain (p + (st.ptr - p)) (m - st.ptr) := by
      rw [Nat.add_sub_cancel' hge]
    have hdone : m - st.ptr < (i - a + 1) * fat.bytesPerCluster - st.ptr % fat.bytesPerCluster ↔
        p + wanted limit e.filesize p < (p / fat.bytesPerCluster + i + 1) * fat.bytesPerCluster := by omega
    rw [hstart, fileBytes_append, length_fileBytes, Nat.add_sub_cancel' (by omega),
      show st.ptr - p + (m - st.ptr) = m - p by omega]
    simp only [hdone]
  · rw [length_fileBytes, hbuff]
    unfold wanted at *
    omega
  · rw [hbuff]
    unfold wanted at *
    omega

/-- The clusters of places `a` to `i` are neighbours. -/
def Run (fat : Fat32) (chain : List ℕ) (p a i : ℕ) : Prop :=
  ∀ j, a ≤ j → j < i → Joined chain (p / fat.bytesPerCluster + j)

theorem Run.getD (h : Run fat chain p a i) {t : ℕ} (ht : t < i - a + 1) :
    chain.getD (p / fat.bytesPerCluster + a + t) 0 = chain.getD (p / fat.bytesPerCluster + a) 0 + t := by
  induction t with
  | zero => rfl
  | succ t ih =>
    have hnext := (h (a + t) (by omega) (by omega)).2
    rw [← Nat.add_assoc] at hnext
    rw [← Nat.add_assoc, hnext, ih (by omega), Nat.add_assoc]

/-- A read does not stop inside a run. -/
theorem LoopFits.not_inside_run (hfits : LoopFits fat chain limit filesize p n) (hB : 0 < fat.bytesPerCluster)
    (h : AtBlock fat chain limit filesize p a st) (hrun : Run fat chain p a i) (hai : a < i) (hin : i < n) :
    ¬ p + wanted limit filesize p < (p / fat.bytesPerCluster + i + 1) * fat.bytesPerCluster := by
  intro hstop
  have hlo : p / fat.bytesPerCluster + a ≤ (p + wanted limit filesize p) / fat.bytesPerCluster := by
    rw [← h.ptr_div hB]
    exact Nat.div_le_div_right h.ptr_le
  have hhi : (p + wanted limit filesize p) / fat.bytesPerCluster < p / fat.bytesPerCluster + i + 1 :=
    (Nat.div_lt_iff_lt_mul hB).mpr hstop
  obtain ⟨t, ht⟩ := Nat.exists_eq_add_of_le hlo
  by_cases hlast : a + t < i
  · have hjoined := hrun (a + t) (by omega) hlast
    exact (hfits.apart _ (by have := hjoined.1; omega) (by omega) (by omega) hjoined).1 (by omega)
  · have hjoined := hrun (a + t - 1) (by omega) (by omega)
    exact (hfits.apart _ (by have := hjoined.1; omega) (by omega) (by omega) hjoined).2 (by omega)

theorem AtBlock.next (hB : 0 < fat.bytesPerCluster) {m c : ℕ}
    (hm : m = min ((p / fat.bytesPerCluster + i + 1) * fat.bytesPerCluster) (p + wanted limit filesize p))
    (hmore : ¬ p + wanted limit filesize p < (p / fat.bytesPerCluster + i + 1) * fat.bytesPerCluster) :
    AtBlock fat chain limit filesize p (i + 1) ⟨m, c, fat.fileBytes chain p (m - p)⟩ := by
  have hpdiv := Nat.div_add_mod' p fat.bytesPerCluster
  have hmod := Nat.mod_lt p hB
  have hmul : (p / fat.bytesPerCluster + i + 1) * fat.bytesPerCluster =
      p / fat.bytesPerCluster * fat.bytesPerCluster + i * fat.bytesPerCluster + fat.bytesPerCluster := by
    rw [Nat.succ_mul, Nat.add_mul]
  refine ⟨?_, by simp only; omega, rfl⟩
  rw [← Nat.add_assoc]
  simp only
  omega

theorem Finished.of_stop (hB : 0 < fat.bytesPerCluster) (h : AtBlock fat chain limit filesize p i st)
    (hchain : p / fat.bytesPerCluster + i < chain.length) {m : ℕ}
    (hm : m = min ((p / fat.bytesPerCluster + i + 1) * fat.bytesPerCluster) (p + wanted limit filesize p))
    (hstop : p + wanted limit filesize p < (p / fat.bytesPerCluster + i + 1) * fat.bytesPerCluster) :
    Finished fat chain limit filesize p
      ⟨m, chain.getD (p / fat.bytesPerCluster + i) 0, fat.fileBytes chain p (m - p)⟩ := by
  obtain rfl : m = p + wanted limit filesize p := by omega
  have hlo : p / fat.bytesPerCluster + i ≤ (p + wanted limit filesize p) / fat.bytesPerCluster := by
    rw [← h.ptr_div hB]
    exact Nat.div_le_div_right h.ptr_le
  have hhi : (p + wanted limit filesize p) / fat.bytesPerCluster < p / fat.bytesPerCluster + i + 1 :=
    (Nat.div_lt_iff_lt_mul hB).mpr hstop
  have hdiv : (p + wanted limit filesize p) / fat.bytesPerCluster = p / fat.bytesPerCluster + i := by omega
  refine ⟨rfl, ?_, fun c hc => ?_, fun hbehind => ?_⟩
  · rw [Nat.add_sub_cancel_left]
  · simp only [hdiv] at hc
    rw [List.getD_eq_getElem?_getD, hc, Option.getD_some]
  · simp only [hdiv] at hbehind
    omega

/-- The chain has come to its end, and so has the file. -/
theorem Finished.of_end (hfile : IsFile fat e chain) (h : AtBlock fat chain limit e.filesize p i st)
    (hp : p ≤ e.filesize) (hi : 0 < i) (hchain : p / fat.bytesPerCluster + i = chain.length)
    (hcurr : st.directoryCurr = chain.getD (p / fat.bytesPerCluster + i - 1) 0) :
    Finished fat chain limit e.filesize p st := by
  have hB := hfile.bytesPerCluster_pos
  have hptr : st.ptr = p + wanted limit e.filesize p := by
    have hge : chain.length * fat.bytesPerCluster ≤ st.ptr := by
      rw [h.ptr, hchain]
      exact le_max_right _ _
    have hsize := hfile.filesize_le
    have hle := h.ptr_le
    have : p + wanted limit e.filesize p ≤ e.filesize := by
      unfold wanted
      omega
    omega
  have hdiv : st.ptr / fat.bytesPerCluster = chain.length := by rw [h.ptr_div hB, hchain]
  refine ⟨hptr, ?_, fun c hc => ?_, fun _ => .inr ?_⟩
  · rw [h.buff, hptr, Nat.add_sub_cancel_left]
  · rw [hdiv, List.getElem?_eq_none (le_refl _)] at hc
    cases hc
  · have hlen : chain.length - 1 < chain.length := Nat.sub_one_lt (by rw [← hchain]; exact (Nat.add_pos_right _ hi).ne')
    rw [hcurr, hchain, List.getLast?_eq_getElem?, List.getD_eq_getElem _ _ hlen, List.getElem?_eq_getElem hlen]

/-- The lookups are the clusters of the chain from the current one on, with the 0 behind the
last one. -/
def Looked (fat : Fat32) (chain : List ℕ) (p n : ℕ) (fatLookup : List ℕ) : Prop :=
  ∀ i ≤ n, p / fat.bytesPerCluster + i ≤ chain.length →
    fatLookup[i]? = some (chain.getD (p / fat.bytesPerCluster + i) 0)

theorem Looked.joinsNext_eq (hfile : IsFile fat e chain) {fatLookup : List ℕ} (h : Looked fat chain p n fatLookup)
    (hi : i < n) (hchain : p / fat.bytesPerCluster + i < chain.length) :
    ∃ b, joinsNext fatLookup n i (chain.getD (p / fat.bytesPerCluster + i) 0) = .ok b ∧
      (b = true → i + 1 < n ∧ Joined chain (p / fat.bytesPerCluster + i)) := by
  unfold joinsNext
  split_ifs with hlast
  · exact ⟨false, rfl, by simp⟩
  · have hnext := h (i + 1) (by omega) (by omega)
    refine ⟨_, by rw [fatLookupAt, hnext, Exec.ok_bind], fun hb => ⟨by omega, ?_⟩⟩
    have hmem : chain.getD (p / fat.bytesPerCluster + i) 0 ∈ chain := by
      rw [List.getD_eq_getElem _ _ hchain]
      exact List.getElem_mem hchain
    have hlt := (hfile.clusters _ hmem).2
    rw [beq_iff_eq, Nat.mod_eq_of_lt (by omega), ← Nat.add_assoc] at hb
    refine ⟨?_, hb⟩
    by_contra hend
    rw [List.getD_eq_default _ _ (by omega)] at hb
    omega

section Equations
variable {fatLookup : List ℕ} {k c : ℕ} {consecStart : Option ℕ} {needed : ℤ}

theorem readLoop_zero (h : fatLookup[i]? = some 0) :
    fat.readLoop limit filesize fatLookup needed (k + 1) i consecStart st = .ok st := by
  simp [readLoop, fatLookupAt, h]

/-- The block stays open. -/
theorem readLoop_joins (h : fatLookup[i]? = some c) (hc : c ≠ 0) (hjoins : joinsNext fatLookup needed i c = .ok true) :
    fat.readLoop limit filesize fatLookup needed (k + 1) i consecStart st =
      fat.readLoop limit filesize fatLookup needed k (i + 1) (some (consecStart.getD i))
        { st with directoryCurr := c } := by
  cases consecStart with
  | none => simp [readLoop, fatLookupAt, h, hc, hjoins]
  | some a => simp [readLoop, fatLookupAt, h, hc, hjoins]

theorem readLoop_single (h : fatLookup[i]? = some c) (hc : c ≠ 0)
    (hjoins : joinsNext fatLookup needed i c = .ok false) {st' : Fat32Reading} {done : Bool}
    (hread : fat.readCluster limit filesize c { st with directoryCurr := c } = .ok (st', done)) :
    fat.readLoop limit filesize fatLookup needed (k + 1) i none st =
      if done then .ok st' else fat.readLoop limit filesize fatLookup needed k (i + 1) none st' := by
  simp [readLoop, fatLookupAt, h, hc, hjoins, hread]

theorem readLoop_run (h : fatLookup[i]? = some c) (hc : c ≠ 0)
    (hjoins : joinsNext fatLookup needed i c = .ok false) {d : ℕ} (hfirst : fatLookup[a]? = some d)
    {st' : Fat32Reading}
    (hread : fat.readRun limit filesize d (i - a + 1) { st with directoryCurr := c } = .ok (st', false)) :
    fat.readLoop limit filesize fatLookup needed (k + 1) i (some a) st =
      fat.readLoop limit filesize fatLookup needed k (i + 1) none st' := by
  simp [readLoop, fatLookupAt, h, hc, hjoins, hfirst, hread]

end Equations

theorem AtBlock.setCurr (h : AtBlock fat chain limit filesize p a st) (c : ℕ) :
    AtBlock fat chain limit filesize p a { st with directoryCurr := c } := ⟨h.ptr, h.ptr_le, h.buff⟩

/-- The last of the lookups is reached only where the chain ends with it. -/
theorem AtBlock.not_at_end (h : AtBlock fat chain limit filesize p n st) (hfits : LoopFits fat chain limit filesize p n)
    (hchain : p / fat.bytesPerCluster + n < chain.length) : False := by
  have hp := Nat.div_add_mod' p fat.bytesPerCluster
  have hptr : (p / fat.bytesPerCluster + n) * fat.bytesPerCluster ≤ st.ptr := by
    rw [h.ptr]
    exact le_max_right _ _
  rw [Nat.add_mul] at hptr
  have hle := h.ptr_le
  rcases hfits.inside with hinside | hinside
  · omega
  · omega

/-- A cluster alone. -/
theorem AtBlock.readCluster_eq (hfile : IsFile fat e chain) (hfits : LoopFits fat chain limit e.filesize p n)
    (h : AtBlock fat chain limit e.filesize p i st) (hp : p ≤ e.filesize)
    (hchain : p / fat.bytesPerCluster + i < chain.length) {m : ℕ}
    (hm : m = min ((p / fat.bytesPerCluster + i + 1) * fat.bytesPerCluster) (p + wanted limit e.filesize p)) :
    fat.readCluster limit e.filesize (chain.getD (p / fat.bytesPerCluster + i) 0) st =
      .ok ({ st with ptr := m, buff := fat.fileBytes chain p (m - p) },
        decide (p + wanted limit e.filesize p < (p / fat.bytesPerCluster + i + 1) * fat.bytesPerCluster)) := by
  have hbytes : fat.getDiskBytes _ (1 * fat.sectorsPerCluster) = fat.fileBytes chain _ (1 * fat.bytesPerCluster) :=
    hfile.getDiskBytes_eq hchain (by simp)
  have hcopy := h.copy_eq hfile hfits hp (le_refl i) hm
  rw [Nat.sub_self, Nat.zero_add] at hcopy
  rw [Nat.one_mul] at hbytes
  simp only [readCluster, hbytes, hcopy]

/-- A run of neighbours, which the read does not stop in. -/
theorem AtBlock.readRun_eq (hfile : IsFile fat e chain) (hfits : LoopFits fat chain limit e.filesize p n)
    (h : AtBlock fat chain limit e.filesize p a st) (hp : p ≤ e.filesize) (hai : a < i) (hin : i < n)
    (hchain : p / fat.bytesPerCluster + i < chain.length) (hrun : Run fat chain p a i) {m : ℕ}
    (hm : m = min ((p / fat.bytesPerCluster + i + 1) * fat.bytesPerCluster) (p + wanted limit e.filesize p)) :
    fat.readRun limit e.filesize (chain.getD (p / fat.bytesPerCluster + a) 0) (i - a + 1) st =
      .ok ({ st with ptr := m, buff := fat.fileBytes chain p (m - p) }, false) := by
  have hbytes := hfile.getDiskBytes_eq (show p / fat.bytesPerCluster + a < chain.length by omega) (fun t ht => hrun.getD ht)
  have hcopy := h.copy_eq hfile hfits hp hai.le hm
  have hspace : (i - a + 1) * fat.bytesPerCluster < 2 ^ 31 := by
    refine lt_of_le_of_lt (Nat.mul_le_mul_right _ ?_) hfits.space
    omega
  have hmore := hfits.not_inside_run hfile.bytesPerCluster_pos h hrun hai hin
  rw [readRun, if_neg (by omega), hbytes]
  simp [hcopy, hmore]

theorem Looked.readLoop_finished (hfile : IsFile fat e chain) (hfits : LoopFits fat chain limit e.filesize p n)
    (hp : p ≤ e.filesize) (hstart : p / fat.bytesPerCluster < chain.length) {fatLookup : List ℕ}
    (hlook : Looked fat chain p n fatLookup) {k : ℕ} (hk : i + k = n + 1) (hin : i ≤ n) (hai : a ≤ i)
    (hrunning : a < i → i < n) (hchain : p / fat.bytesPerCluster + i ≤ chain.length) (hrun : Run fat chain p a i)
    (hat : AtBlock fat chain limit e.filesize p a st)
    (hcurr : 0 < i → st.directoryCurr = chain.getD (p / fat.bytesPerCluster + i - 1) 0) :
    Exec.Meets (fun _ => False) (Finished fat chain limit e.filesize p)
      (fat.readLoop limit e.filesize fatLookup n k i (if a = i then none else some a) st) := by
  have hB := hfile.bytesPerCluster_pos
  induction k generalizing i a st with
  | zero => omega
  | succ k ih =>
    have hget := hlook i hin hchain
    rcases Nat.eq_or_lt_of_le hchain with hend | hlt
    · -- The 0 behind the last cluster.
      obtain rfl : a = i := by
        by_contra hne
        have := (hrun (i - 1) (by omega) (by omega)).1
        omega
      rw [hend, List.getD_eq_default _ _ (le_refl _)] at hget
      rw [readLoop_zero hget]
      exact Finished.of_end hfile hat hp (by omega) hend (hcurr (by omega))
    have hmem : chain.getD (p / fat.bytesPerCluster + i) 0 ∈ chain := by
      rw [List.getD_eq_getElem _ _ hlt]
      exact List.getElem_mem hlt
    have hne : chain.getD (p / fat.bytesPerCluster + i) 0 ≠ 0 := by
      have := (hfile.clusters _ hmem).1
      omega
    have hin' : i < n := by
      by_contra hge
      obtain rfl : a = n := by omega
      exact hat.not_at_end hfits (by omega)
    obtain ⟨b, hjoins, hb⟩ := hlook.joinsNext_eq hfile hin' hlt
    have hat' := hat.setCurr (chain.getD (p / fat.bytesPerCluster + i) 0)
    have hopen : ∀ st', AtBlock fat chain limit e.filesize p (i + 1) st' →
        st'.directoryCurr = chain.getD (p / fat.bytesPerCluster + i) 0 →
        Exec.Meets (fun _ => False) (Finished fat chain limit e.filesize p)
          (fat.readLoop limit e.filesize fatLookup n k (i + 1) none st') := by
      intro st' hst' hcurr'
      have := ih (by omega) hin' (le_refl _) (fun h => (lt_irrefl _ h).elim) hlt
        (fun j h h' => absurd h' (by omega)) hst' fun _ => hcurr'
      rwa [if_pos rfl] at this
    cases b with
    | true =>
      obtain ⟨hnext, hjoined⟩ := hb rfl
      have hstill : some ((if a = i then none else some a).getD i) = if a = i + 1 then none else some a := by
        rw [if_neg (show a ≠ i + 1 by omega)]
        split_ifs with heq
        · rw [heq, Option.getD_none]
        · rw [Option.getD_some]
      rw [readLoop_joins hget hne hjoins, hstill]
      refine ih (by omega) hnext.le (by omega) (fun _ => hnext) hlt (fun j haj hji => ?_) hat' fun _ => rfl
      rcases Nat.lt_succ_iff_lt_or_eq.mp hji with hji | rfl
      · exact hrun j haj hji
      · exact hjoined
    | false =>
      rcases Nat.eq_or_lt_of_le hai with rfl | hai'
      · rw [if_pos rfl, readLoop_single hget hne hjoins (hat'.readCluster_eq hfile hfits hp hlt rfl)]
        split_ifs with hdone
        · exact Finished.of_stop hB hat hlt rfl (of_decide_eq_true hdone)
        · exact hopen _ (AtBlock.next hB rfl (by simpa using hdone)) rfl
      · rw [if_neg hai'.ne, readLoop_run hget hne hjoins (hlook a (by omega) (by omega))
          (hat'.readRun_eq hfile hfits hp hai' hin' hlt hrun rfl)]
        exact hopen _ (AtBlock.next hB rfl (hfits.not_inside_run hB hat hrun hai' hin')) rfl

end Loop

/-! ### The calls -/

section Calls
variable {fat' : Fat32} {dir : Fat32OpenFd} {limit : ℕ}

/-- A read that stays inside its lookups and ends outside every run of clusters that it takes
at once, with counts that fit an `int`. -/
structure ReadFits (fat : Fat32) (chain : List ℕ) (dir : Fat32OpenFd) (limit : ℕ) : Prop where
  count : fat.lookups limit < 2 ^ 31 - 1
  space : min (fat.lookups limit) (chain.length - dir.ptr / fat.bytesPerCluster) * fat.bytesPerCluster < 2 ^ 31
  empty : limit = 0 → dir.directoryCurr = 0
  inside : limit ≠ 0 →
    wanted limit dir.dirEnt.filesize dir.ptr <
      fat.lookups limit * fat.bytesPerCluster - dir.ptr % fat.bytesPerCluster ∨
    chain.length ≤ dir.ptr / fat.bytesPerCluster + fat.lookups limit
  apart : ∀ j < chain.length, dir.ptr / fat.bytesPerCluster ≤ j →
    j + 1 < dir.ptr / fat.bytesPerCluster + fat.lookups limit → Joined chain j →
    (dir.ptr + wanted limit dir.dirEnt.filesize dir.ptr) / fat.bytesPerCluster ≠ j ∧
      (dir.ptr + wanted limit dir.dirEnt.filesize dir.ptr) / fat.bytesPerCluster ≠ j + 1

instance (fat : Fat32) (chain : List ℕ) (dir : Fat32OpenFd) (limit : ℕ) : Decidable (ReadFits fat chain dir limit) :=
  decidable_of_iff (_ ∧ _ ∧ _ ∧ _ ∧ _) ⟨fun h => ⟨h.1, h.2.1, h.2.2.1, h.2.2.2.1, h.2.2.2.2⟩,
    fun h => ⟨h.count, h.space, h.empty, h.inside, h.apart⟩⟩

theorem SameVolume.fileBytes (h : SameVolume fat fat') (p n : ℕ) :
    fat'.fileBytes chain p n = fat.fileBytes chain p n := by
  unfold Fat32.fileBytes fileByte
  rw [h.bytesPerCluster, h.disk, h.offsetClusters, h.sectorsPerCluster]

theorem SameVolume.placed (h : SameVolume fat fat') {ptr directoryCurr : ℕ} :
    fat'.Placed chain ptr directoryCurr ↔ fat.Placed chain ptr directoryCurr := by
  constructor
  · rintro ⟨hin, hout⟩
    rw [h.bytesPerCluster] at hin hout
    exact ⟨hin, hout⟩
  · rintro ⟨hin, hout⟩
    rw [← h.bytesPerCluster] at hin hout
    exact ⟨hin, hout⟩

theorem le_lookups_mul (hB : 0 < fat.bytesPerCluster) (limit : ℕ) :
    limit ≤ fat.lookups limit * fat.bytesPerCluster := by
  have h := Nat.lt_div_mul_add hB (a := limit + fat.bytesPerCluster - 1)
  unfold lookups
  omega

theorem lookups_pos (hB : 0 < fat.bytesPerCluster) (hlimit : limit ≠ 0) : 0 < fat.lookups limit := by
  have h := le_lookups_mul hB limit
  by_contra hzero
  rw [Nat.eq_zero_of_not_pos hzero, Nat.zero_mul] at h
  omega

/-- The count of the code is the exact one. -/
theorem IsFile.lookupsNeeded_eq (h : IsFile fat e chain) (hcount : fat.lookups limit < 2 ^ 31 - 1) :
    fat.lookupsNeeded limit = fat.lookups limit := by
  have hB := h.bytesPerCluster_pos
  have hlt : fat.bytesPerCluster < 2 ^ 17 := by
    have := h.cluster_lt
    simp only [bytesPerCluster, sectorSize]
    omega
  have hle := le_lookups_mul hB limit
  have hmul : fat.lookups limit * fat.bytesPerCluster ≤ 2 ^ 31 * 2 ^ 17 := Nat.mul_le_mul (by omega) hlt.le
  rw [lookupsNeeded, ceilingDivision_eq hB (by omega)]
  exact wrapInt_natCast (by unfold lookups at hcount; omega)

/-- What a read leaves: the volume, the entry, the pointer after what it returns, and the
cluster of the pointer. -/
structure ReadDone (fat : Fat32) (chain : List ℕ) (dir : Fat32OpenFd) (limit : ℕ)
    (r : Fat32 × Fat32OpenFd × List (BitVec 8)) : Prop where
  walked : Walked fat r.1
  dirEnt : r.2.1.dirEnt = dir.dirEnt
  ptr : r.2.1.ptr = dir.ptr + wanted limit dir.dirEnt.filesize dir.ptr
  bytes : r.2.2 = fat.fileBytes chain dir.ptr (wanted limit dir.dirEnt.filesize dir.ptr)
  placed : fat.Placed chain r.2.1.ptr r.2.1.directoryCurr

theorem fatChain_eq {c n : ℕ} (h : ¬ (n + 1) % 2 ^ 32 = 0) :
    fat.fatChain c n = .ok ((fat.fatChainRest c n).1, c :: (fat.fatChainRest c n).2) := by
  unfold fatChain
  rw [if_neg h]

/-- The call is its loop over the lookups. -/
theorem IsFile.fat32Read_eq (h : IsFile fat dir.dirEnt chain) (hcount : fat.lookups limit < 2 ^ 31 - 1) :
    fat.fat32Read dir limit = (do
      let st ← (fat.fatChainRest dir.directoryCurr (fat.lookups limit)).1.readLoop limit dir.dirEnt.filesize
        (dir.directoryCurr :: (fat.fatChainRest dir.directoryCurr (fat.lookups limit)).2) (fat.lookups limit)
        (fat.lookups limit + 1) 0 none ⟨dir.ptr, dir.directoryCurr, []⟩
      .ok ((fat.fatChainRest dir.directoryCurr (fat.lookups limit)).1,
        { dir with ptr := st.ptr, directoryCurr := st.directoryCurr }, st.buff)) := by
  have hamount : ((fat.lookups limit : ℤ) % 2 ^ 32).toNat = fat.lookups limit := by omega
  have hplace : ¬ (fat.lookups limit + 1) % 2 ^ 32 = 0 := by omega
  have hsigned : ¬ (fat.lookups limit : ℤ) + 1 ≥ 2 ^ 31 := by omega
  have hplaces : ((fat.lookups limit : ℤ) + 1).toNat = fat.lookups limit + 1 := by omega
  simp only [fat32Read, h.regular, Bool.false_eq_true, if_false, h.lookupsNeeded_eq hcount, hamount,
    fatChain_eq hplace, Exec.ok_bind, if_neg hsigned, hplaces]

theorem Finished.readDone (hwalked : Walked fat fat') {st : Fat32Reading}
    (h : Finished fat' chain limit dir.dirEnt.filesize dir.ptr st) :
    ReadDone fat chain dir limit
      (fat', { dir with ptr := st.ptr, directoryCurr := st.directoryCurr }, st.buff) where
  walked := hwalked
  dirEnt := rfl
  ptr := h.ptr
  bytes := by rw [← hwalked.2.fileBytes]; exact h.buff
  placed := hwalked.2.placed.mp h.placed

/-- From inside the chain. -/
theorem IsFile.fat32Read_inside (h : IsFile fat dir.dirEnt chain) (hcache : CacheSound fat)
    (hfits : ReadFits fat chain dir limit) (hptr : dir.ptr ≤ dir.dirEnt.filesize)
    (hplaced : fat.Placed chain dir.ptr dir.directoryCurr)
    (hinside : dir.ptr / fat.bytesPerCluster < chain.length) :
    Exec.Meets (fun _ => False) (ReadDone fat chain dir limit) (fat.fat32Read dir limit) := by
  have hB := h.bytesPerCluster_pos
  have hget : chain[dir.ptr / fat.bytesPerCluster]? = some dir.directoryCurr := by
    rw [List.getElem?_eq_getElem hinside, hplaced.inside _ (List.getElem?_eq_getElem hinside)]
  have hlimit : limit ≠ 0 := by
    intro hzero
    have := (h.clusters _ (List.mem_of_getElem? hget)).1
    rw [hfits.empty hzero] at this
    omega
  have hwalked := fatChainRest_walked hcache dir.directoryCurr (fat.lookups limit)
  have hsame := hwalked.2.bytesPerCluster
  have hloop : LoopFits (fat.fatChainRest dir.directoryCurr (fat.lookups limit)).1 chain limit dir.dirEnt.filesize
      dir.ptr (fat.lookups limit) := by
    refine ⟨lookups_pos hB hlimit, ?_, ?_, ?_, ?_⟩
    · rw [hsame]
      exact le_lookups_mul hB limit
    · rw [hsame]
      exact hfits.space
    · rw [hsame]
      exact hfits.inside hlimit
    · rw [hsame]
      exact hfits.apart
  have hlook : Looked (fat.fatChainRest dir.directoryCurr (fat.lookups limit)).1 chain dir.ptr (fat.lookups limit)
      (dir.directoryCurr :: (fat.fatChainRest dir.directoryCurr (fat.lookups limit)).2) := by
    intro i hi hlen
    rw [hsame] at hlen ⊢
    cases i with
    | zero => rw [Nat.add_zero, List.getElem?_cons_zero, List.getD_eq_getElem?_getD, hget, Option.getD_some]
    | succ i =>
      rw [List.getElem?_cons_succ, h.fatChainRest_getElem? hcache hget hi (by omega), Nat.add_assoc, Nat.add_comm 1 i]
  rw [h.fat32Read_eq hfits.count]
  refine Exec.Meets.bind (hlook.readLoop_finished (h.sameVolume hwalked.2) hloop hptr (by rwa [hsame]) (by omega)
    (by omega) (le_refl 0) (fun h => (lt_irrefl _ h).elim) (by rw [hsame]; omega) (fun j h h' => absurd h' (by omega))
    ⟨?_, ?_, ?_⟩ (fun h => absurd h (by omega))) fun st hst => hst.readDone hwalked
  · have := Nat.div_mul_le_self dir.ptr fat.bytesPerCluster
    rw [hsame, Nat.add_zero]
    exact (max_eq_left this).symm
  · exact Nat.le_add_right _ _
  · simp [Fat32.fileBytes]

/-- From behind the chain, where the file has no more bytes. -/
theorem IsFile.fat32Read_behind (h : IsFile fat dir.dirEnt chain) (hcache : CacheSound fat)
    (hfits : ReadFits fat chain dir limit) (hptr : dir.ptr ≤ dir.dirEnt.filesize)
    (hplaced : fat.Placed chain dir.ptr dir.directoryCurr)
    (hbehind : chain.length ≤ dir.ptr / fat.bytesPerCluster) :
    Exec.Meets (fun _ => False) (ReadDone fat chain dir limit) (fat.fat32Read dir limit) := by
  have hB := h.bytesPerCluster_pos
  have hsize : dir.dirEnt.filesize ≤ dir.ptr :=
    h.filesize_le.trans ((Nat.mul_le_mul_right _ hbehind).trans (Nat.div_mul_le_self _ _))
  have hnone : wanted limit dir.dirEnt.filesize dir.ptr = 0 := by
    unfold wanted
    omega
  have hwalked := fatChainRest_walked hcache dir.directoryCurr (fat.lookups limit)
  have hdone : Finished (fat.fatChainRest dir.directoryCurr (fat.lookups limit)).1 chain limit dir.dirEnt.filesize
      dir.ptr ⟨dir.ptr, dir.directoryCurr, []⟩ := by
    refine ⟨by rw [hnone, Nat.add_zero], by simp [hnone, Fat32.fileBytes], hwalked.2.placed.mpr hplaced⟩
  rw [h.fat32Read_eq hfits.count]
  rcases hplaced.behind hbehind with hzero | hlast
  · have hget : (dir.directoryCurr :: (fat.fatChainRest dir.directoryCurr (fat.lookups limit)).2)[0]? = some 0 := by
      rw [List.getElem?_cons_zero, hzero]
    rw [readLoop_zero hget]
    exact hdone.readDone hwalked
  · have hmem := List.mem_of_getLast? hlast
    have hclusters := h.clusters _ hmem
    have hne : dir.directoryCurr ≠ 0 := by omega
    have hlimit : limit ≠ 0 := fun hzero => hne (hfits.empty hzero)
    have hpos := lookups_pos hB hlimit
    rw [List.getLast?_eq_getElem?] at hlast
    have hlen : 0 < chain.length := List.length_pos_of_mem hmem
    have hrest := h.fatChainRest_getElem? hcache hlast hpos (by omega)
    rw [Nat.sub_add_cancel hlen, List.getD_eq_default _ _ (le_refl _)] at hrest
    have hjoins : joinsNext (dir.directoryCurr :: (fat.fatChainRest dir.directoryCurr (fat.lookups limit)).2)
        (fat.lookups limit) 0 dir.directoryCurr = .ok false := by
      unfold joinsNext
      split_ifs
      · rfl
      · rw [fatLookupAt, List.getElem?_cons_succ, hrest, Exec.ok_bind, Nat.mod_eq_of_lt (by omega)]
        simp
    have hread : (fat.fatChainRest dir.directoryCurr (fat.lookups limit)).1.readCluster limit dir.dirEnt.filesize
        dir.directoryCurr ⟨dir.ptr, dir.directoryCurr, []⟩ = .ok (⟨dir.ptr, dir.directoryCurr, []⟩, true) := by
      have hbytes : 0 < ((fat.fatChainRest dir.directoryCurr (fat.lookups limit)).1.getDiskBytes
          ((fat.fatChainRest dir.directoryCurr (fat.lookups limit)).1.clusterToLba dir.directoryCurr)
          (fat.fatChainRest dir.directoryCurr (fat.lookups limit)).1.sectorsPerCluster |>.drop
            (dir.ptr % (fat.fatChainRest dir.directoryCurr (fat.lookups limit)).1.bytesPerCluster)).length := by
        rw [List.length_drop, Fat32.getDiskBytes, Bytes.length_read, hwalked.2.bytesPerCluster,
          hwalked.2.sectorsPerCluster]
        exact Nat.sub_pos_of_lt (Nat.mod_lt _ hB)
      rw [readCluster, Fat32.copy_eq (m := 0) (by simp; omega) (by simp)]
      simp only [Nat.add_zero, List.take_zero, List.append_nil, hbytes, decide_true]
    rw [readLoop_single List.getElem?_cons_zero hne hjoins hread, if_pos rfl]
    exact hdone.readDone hwalked

theorem IsFile.fat32Read_meets (h : IsFile fat dir.dirEnt chain) (hcache : CacheSound fat)
    (hfits : ReadFits fat chain dir limit) (hptr : dir.ptr ≤ dir.dirEnt.filesize)
    (hplaced : fat.Placed chain dir.ptr dir.directoryCurr) :
    Exec.Meets (fun _ => False) (ReadDone fat chain dir limit) (fat.fat32Read dir limit) := by
  rcases Nat.lt_or_ge (dir.ptr / fat.bytesPerCluster) chain.length with hinside | hbehind
  · exact h.fat32Read_inside hcache hfits hptr hplaced hinside
  · exact h.fat32Read_behind hcache hfits hptr hplaced hbehind

/-- The cluster at a place that the chain reaches, or 0 right behind it. -/
theorem placed_getD (ptr : ℕ) :
    fat.Placed chain ptr (chain.getD (ptr / fat.bytesPerCluster) 0) := by
  refine ⟨fun c hc => ?_, fun hbehind => .inl ?_⟩
  · rw [List.getD_eq_getElem?_getD, hc, Option.getD_some]
  · exact List.getD_eq_default _ _ hbehind

/-- What a seek leaves. -/
structure SeekDone (fat : Fat32) (chain : List ℕ) (dir : Fat32OpenFd) (r : Fat32 × Fat32OpenFd × Option ℕ) : Prop where
  walked : Walked fat r.1
  dirEnt : r.2.1.dirEnt = dir.dirEnt
  ptr_le : r.2.1.ptr ≤ dir.dirEnt.filesize
  placed : fat.Placed chain r.2.1.ptr r.2.1.directoryCurr

/-- A seek starts at the current cluster, or at the first one with the pointer at 0. -/
theorem seekFrom_eq {target : ℕ} (htarget : target < 2 ^ 32) (hptr : dir.ptr < 2 ^ 32) :
    dir.ptr ≤ target ∧ seekFrom dir target = (dir.directoryCurr, (dir.ptr : ℤ)) ∨
      0 < dir.ptr ∧ seekFrom dir target = (dir.dirEnt.firstCluster, 0) := by
  by_cases hsmall : dir.ptr < 2 ^ 31
  · have hold : intToSize (wrapInt dir.ptr) = dir.ptr := by
      rw [wrapInt_natCast hsmall, intToSize_of_nonneg (by omega)]
    by_cases hle : dir.ptr ≤ target
    · exact .inl ⟨hle, by simp only [seekFrom, hold]; rw [if_neg (by omega), wrapInt_natCast hsmall]⟩
    · exact .inr ⟨by omega, by simp only [seekFrom, hold]; rw [if_pos (by omega)]⟩
  · have hold : intToSize (wrapInt dir.ptr) > target := by
      unfold wrapInt intToSize
      rw [Int.bmod_def]
      omega
    exact .inr ⟨by omega, by simp only [seekFrom]; rw [if_pos hold]⟩

/-- The walk from a place of the chain to the cluster of the target. -/
theorem IsFile.skip_done (h : IsFile fat dir.dirEnt chain) (hcache : CacheSound fat) {target k c n : ℕ}
    (htarget : target ≤ dir.dirEnt.filesize) (hk : chain[k]? = some c) (hn : k + n = target / fat.bytesPerCluster)
    (ret : Option ℕ) :
    SeekDone fat chain dir ((fat.skipClusters c n).1,
      { dir with ptr := target, directoryCurr := (fat.skipClusters c n).2 }, ret) := by
  have hlen : target / fat.bytesPerCluster ≤ chain.length :=
    Nat.div_le_of_le_mul ((htarget.trans h.filesize_le).trans_eq (Nat.mul_comm _ _))
  obtain ⟨hcurr, hwalked⟩ := h.skipClusters_eq hcache hk (hn.trans_le hlen)
  refine ⟨hwalked, rfl, htarget, ?_⟩
  simp only [hcurr, hn]
  exact placed_getD target

/-- From the first cluster, which a file that is not empty has. -/
theorem IsFile.skip_first (h : IsFile fat dir.dirEnt chain) (hcache : CacheSound fat) {target : ℕ}
    (htarget : target ≤ dir.dirEnt.filesize) (hpos : 0 < dir.dirEnt.filesize) (ret : Option ℕ) :
    SeekDone fat chain dir ((fat.skipClusters dir.dirEnt.firstCluster (target / fat.bytesPerCluster)).1,
      { dir with ptr := target, directoryCurr := (fat.skipClusters dir.dirEnt.firstCluster (target / fat.bytesPerCluster)).2 },
      ret) := by
  have hle := h.filesize_le
  cases hchain : chain with
  | nil =>
    rw [hchain, List.length_nil, Nat.zero_mul] at hle
    omega
  | cons c rest =>
    rw [← hchain]
    refine h.skip_done hcache htarget (k := 0) ?_ (Nat.zero_add _) ret
    rw [h.first, hchain, List.getElem?_cons_zero, List.headD_cons]

theorem IsFile.seekTo_done (h : IsFile fat dir.dirEnt chain) (hcache : CacheSound fat)
    (hptr : dir.ptr ≤ dir.dirEnt.filesize) (hplaced : fat.Placed chain dir.ptr dir.directoryCurr) {target : ℕ}
    (htarget : target ≤ dir.dirEnt.filesize) (ret : Option ℕ) :
    SeekDone fat chain dir
      ((fat.seekTo dir target).1, { dir with ptr := target, directoryCurr := (fat.seekTo dir target).2 }, ret) := by
  have hsize := h.filesize_lt
  have htwo : 2 ≤ fat.bytesPerCluster := by
    have := h.cluster_pos
    simp only [bytesPerCluster, sectorSize]
    omega
  have hskip : wrapInt (target / fat.bytesPerCluster : ℕ) = (target / fat.bytesPerCluster : ℕ) :=
    wrapInt_natCast (Nat.div_lt_of_lt_mul (by omega))
  rcases seekFrom_eq (show target < 2 ^ 32 by omega) (show dir.ptr < 2 ^ 32 by omega) with
    ⟨hle, hfrom⟩ | ⟨hpos, hfrom⟩
  · have hcount : ((target / fat.bytesPerCluster : ℕ) - (dir.ptr : ℤ) / (fat.bytesPerCluster : ℕ)).toNat =
        target / fat.bytesPerCluster - dir.ptr / fat.bytesPerCluster := by
      rw [← Int.natCast_div]
      omega
    simp only [seekTo, hfrom, hskip, hcount]
    rcases Nat.lt_or_ge (dir.ptr / fat.bytesPerCluster) chain.length with hinside | hbehind
    · have hget := List.getElem?_eq_getElem hinside
      have hsum := Nat.add_sub_cancel' (Nat.div_le_div_right (c := fat.bytesPerCluster) hle)
      rw [hplaced.inside _ hget]
      exact h.skip_done hcache htarget hget hsum ret
    · have hend : dir.dirEnt.filesize ≤ dir.ptr :=
        h.filesize_le.trans ((Nat.mul_le_mul_right _ hbehind).trans (Nat.div_mul_le_self _ _))
      obtain rfl : target = dir.ptr := by omega
      rw [Nat.sub_self, skipClusters]
      exact ⟨⟨hcache, .refl fat⟩, rfl, hptr, hplaced⟩
  · have hcount : ((target / fat.bytesPerCluster : ℕ) - (0 : ℤ) / (fat.bytesPerCluster : ℕ)).toNat =
        target / fat.bytesPerCluster := by rw [Int.zero_ediv, Int.sub_zero, Int.toNat_natCast]
    simp only [seekTo, hfrom, hskip, hcount]
    exact h.skip_first hcache htarget (by omega) ret

theorem IsFile.fat32Seek_done (h : IsFile fat dir.dirEnt chain) (hcache : CacheSound fat)
    (hptr : dir.ptr ≤ dir.dirEnt.filesize) (hplaced : fat.Placed chain dir.ptr dir.directoryCurr)
    (target : ℕ) (current : Bool) : SeekDone fat chain dir (fat.fat32Seek dir target current) := by
  have hkept : SeekDone fat chain dir (fat, dir, none) := ⟨⟨hcache, .refl fat⟩, rfl, hptr, hplaced⟩
  simp only [fat32Seek]
  split_ifs with hdir hbig
  · exact hkept
  · exact hkept
  · exact h.seekTo_done hcache hptr hplaced (by omega) _

end Calls

end DualFuse.Filesystems.Fat32

namespace DualFuse.Filesystems

open Library

inductive Fat32Call where
  | read (limit : ℕ)
  | seek (target : ℕ) (current : Bool)
  deriving DecidableEq, Repr

/-- One read: the pointer before it, its limit, the bytes that it returned, as many as its
result says, and the pointer after it. -/
structure Fat32Report where
  before : ℕ
  limit : ℕ
  bytes : List (BitVec 8)
  after : ℕ
  deriving DecidableEq, Repr

/-- An open file and what its reads returned. -/
structure Fat32Use where
  fat : Fat32
  dir : Fat32OpenFd
  reports : List Fat32Report

namespace Fat32Use

/-- `fat32_open` of an entry. -/
def opened (fat : Fat32) (e : Fat32DirectoryEntry) : Fat32Use := ⟨fat, ⟨0, e.firstCluster, e⟩, []⟩

def step (s : Fat32Use) : Fat32Call → Exec Fat32Use
  | .read limit => do
    let (fat, dir, bytes) ← s.fat.fat32Read s.dir limit
    .ok ⟨fat, dir, s.reports ++ [⟨s.dir.ptr, limit, bytes, dir.ptr⟩]⟩
  | .seek target current =>
    let (fat, dir, _) := s.fat.fat32Seek s.dir target current
    .ok { s with fat, dir }

/-- A read gets the bytes of the file from its pointer on, as many as it asks for and the file
has, and moves the pointer behind them. -/
def Fat32Report.Right (fat : Fat32) (e : Fat32DirectoryEntry) (chain : List ℕ) (r : Fat32Report) : Prop :=
  r.bytes = fat.fileBytes chain r.before (min r.limit (e.filesize - r.before)) ∧
    r.after = r.before + min r.limit (e.filesize - r.before)

/-- Every read was right, and the current cluster is the one of the pointer, where that is
inside the chain. -/
structure Right (fat : Fat32) (e : Fat32DirectoryEntry) (chain : List ℕ) (s : Fat32Use) : Prop where
  reports : ∀ r ∈ s.reports, Fat32Report.Right fat e chain r
  directoryCurr : ∀ c, chain[s.dir.ptr / fat.bytesPerCluster]? = some c → s.dir.directoryCurr = c

/-- A read stays inside its lookups, and ends outside every run that it takes at once. -/
def Fits (chain : List ℕ) (s : Fat32Use) : Fat32Call → Prop
  | .read limit => s.fat.ReadFits chain s.dir limit
  | .seek _ _ => True

variable {fat : Fat32} {e : Fat32DirectoryEntry} {chain : List ℕ} {s : Fat32Use}

structure Sound (fat : Fat32) (e : Fat32DirectoryEntry) (chain : List ℕ) (s : Fat32Use) : Prop where
  walked : fat.Walked s.fat
  dirEnt : s.dir.dirEnt = e
  ptr_le : s.dir.ptr ≤ e.filesize
  placed : fat.Placed chain s.dir.ptr s.dir.directoryCurr
  reports : ∀ r ∈ s.reports, Fat32Report.Right fat e chain r

theorem Sound.right (h : Sound fat e chain s) : Right fat e chain s := ⟨h.reports, h.placed.inside⟩

theorem Sound.of_opened (hfile : fat.IsFile e chain) (hcache : fat.CacheSound) :
    Sound fat e chain (opened fat e) := by
  refine ⟨⟨hcache, .refl fat⟩, rfl, Nat.zero_le _, ?_, by simp [opened]⟩
  have hfirst : e.firstCluster = chain.getD (0 / fat.bytesPerCluster) 0 := by
    rw [hfile.first, Nat.zero_div]
    cases chain <;> rfl
  change fat.Placed chain 0 e.firstCluster
  rw [hfirst]
  exact Fat32.placed_getD 0

theorem Sound.read (hfile : fat.IsFile e chain) (h : Sound fat e chain s) {limit : ℕ}
    (hfits : s.fat.ReadFits chain s.dir limit) :
    Exec.Meets (fun _ => False) (Sound fat e chain) (s.step (.read limit)) := by
  obtain ⟨hwalked, rfl, hptr, hplaced, hreports⟩ := h
  have hread := (hfile.sameVolume hwalked.2).fat32Read_meets hwalked.1 hfits hptr (hwalked.2.placed.mpr hplaced)
  refine hread.bind fun ⟨fat', dir', bytes⟩ hdone => ?_
  refine ⟨hwalked.trans hdone.walked, hdone.dirEnt, ?_, hwalked.2.placed.mp hdone.placed, ?_⟩
  · rw [show dir'.ptr = _ from hdone.ptr, Fat32.wanted]
    omega
  · intro r hr
    rcases List.mem_append.mp hr with hr | hr
    · exact hreports r hr
    · rw [List.mem_singleton.mp hr]
      refine ⟨?_, hdone.ptr⟩
      rw [← hwalked.2.fileBytes]
      exact hdone.bytes

theorem Sound.seek (hfile : fat.IsFile e chain) (h : Sound fat e chain s) (target : ℕ) (current : Bool) :
    Exec.Meets (fun _ => False) (Sound fat e chain) (s.step (.seek target current)) := by
  obtain ⟨hwalked, rfl, hptr, hplaced, hreports⟩ := h
  have hdone := (hfile.sameVolume hwalked.2).fat32Seek_done hwalked.1 hptr (hwalked.2.placed.mpr hplaced) target current
  exact ⟨hwalked.trans hdone.walked, hdone.dirEnt, hdone.ptr_le, hwalked.2.placed.mp hdone.placed, hreports⟩

/-- In every run of reads and seeks of a file with a well-formed chain, whose reads all fit,
every read is right and no step stops. -/
theorem reads_right_of_fits (hfile : fat.IsFile e chain) (hcache : fat.CacheSound) {calls : List Fat32Call}
    (hfits : Guarded step (Fits chain) (opened fat e) calls) :
    Throughout step (fun _ => False) (Right fat e chain) (opened fat e) calls := by
  refine throughout_of_guarded (fun s h => Sound.right h) ?_ (Sound.of_opened hfile hcache) hfits
  intro s o h hguard
  cases o with
  | read limit => exact h.read hfile hguard
  | seek target current => exact h.seek hfile target current

instance (chain : List ℕ) (s : Fat32Use) : (o : Fat32Call) → Decidable (Fits chain s o)
  | .read limit => inferInstanceAs (Decidable (s.fat.ReadFits chain s.dir limit))
  | .seek _ _ => isTrue trivial

/-- A volume with clusters of one sector and a file of 515 bytes in its clusters 2 and 4. -/
def sampleVolume : Fat32 where
  disk i :=
    if i = 520 then 4
    else if 520 < i ∧ i < 524 then 0
    else if 528 ≤ i ∧ i < 531 then 0xFF
    else if i = 531 then 0x0F
    else BitVec.ofNat 8 i
  offsetFats := 1
  offsetClusters := 2
  sectorsPerCluster := 1
  cache := List.replicate fat32CacheMax (fat32CacheBad, [])
  cacheCurr := 0

def sampleEntry : Fat32DirectoryEntry := ⟨0, 0, 2, 515⟩

theorem sampleVolume_isFile : sampleVolume.IsFile sampleEntry [2, 4] where
  regular := by decide
  cluster_pos := by decide
  cluster_lt := by decide
  first := by decide
  clusters := by decide
  linked := by
    intro i c d hc hd
    rcases i with _ | i
    · simp only [List.getElem?_cons_zero, Option.some.injEq] at hc
      simp only [Nat.zero_add, List.getElem?_cons_succ, List.getElem?_cons_zero, Option.some.injEq] at hd
      subst hc hd
      decide +kernel
    · simp at hd
  ended := by
    intro c hc
    obtain rfl : 4 = c := by simpa using hc
    decide +kernel
  table := by decide
  data := by decide
  filesize_le := by decide
  filesize_lt := by decide

theorem sampleVolume_cacheSound : sampleVolume.CacheSound := by
  intro e he hbad
  rw [List.eq_of_mem_replicate he] at hbad
  exact absurd rfl hbad

theorem sample_reads_right :
    Throughout step (fun _ => False) (Right sampleVolume sampleEntry [2, 4]) (opened sampleVolume sampleEntry)
      [.read 3, .seek 510 false, .read 513, .read 2] ∧
      ∃ s, run step (opened sampleVolume sampleEntry) [.read 3, .seek 510 false, .read 513, .read 2] = .ok s ∧
        s.reports.map (·.bytes.length) = [3, 5, 0] :=
  ⟨reads_right_of_fits sampleVolume_isFile sampleVolume_cacheSound (by decide +kernel), by decide +kernel⟩

/-- A read of exactly the first cluster looks at the cluster behind the last lookup. -/
theorem read_one_cluster_faults :
    ¬ ∀ fat e chain calls, Fat32.IsFile fat e chain → fat.CacheSound →
      Throughout step (fun _ => False) (Right fat e chain) (opened fat e) calls := by
  intro h
  have hfault : ¬ ∃ s, run step (opened sampleVolume sampleEntry) [.read 512] = .ok s ∧ True := by decide +kernel
  obtain ⟨s, hs, -⟩ := (h sampleVolume sampleEntry [2, 4] [.read 512] sampleVolume_isFile sampleVolume_cacheSound).ok
  exact hfault ⟨s, hs, trivial⟩

end Fat32Use

end DualFuse.Filesystems
