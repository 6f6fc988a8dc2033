import DualFuse.Filesystems.Sanitize

/-! Choosing a mount point, stripping its prefix, and putting the prefix back before the
target of a symbolic link (`filesystems/vfs/vfs_mnt.cpp`, `vfs_sanitize.cpp`). The three
functions agree that the prefix counts without its last slash. -/

namespace DualFuse.Filesystems.VfsPath

open Library PathText

/-- `!`, before a target that stands for a path of its own. -/
def bang : BitVec 8 := 33

/-- The null pointer where the link is neither absolute nor marked. -/
def fsResolveSymlink (mnt : MountPoint) (symlink : PathName) : Option PathName :=
  match symlink with
  | [] => none
  | c :: rest =>
    if c = slash then some (mnt.mountPrefix.take (mnt.mountPrefix.length - 1) ++ symlink)
    else if c = bang then some rest
    else none

/-- The prefix without its last slash. -/
def MountPoint.base (mnt : MountPoint) : PathName := mnt.mountPrefix.dropLast

/-- The path is the mount point, or goes on behind it with a new component. -/
def MountPoint.Covers (mnt : MountPoint) (path : PathName) : Prop :=
  ∃ s, path = mnt.base ++ s ∧ (s = [] ∨ s.head? = some slash)

/-- The longest mount point that covers the path, and the last of these in the list. -/
def LongestCover (mounts : List MountPoint) (path : PathName) (mnt : MountPoint) : Prop :=
  ∃ l r, mounts = l ++ mnt :: r ∧ mnt.Covers path ∧
    (∀ m ∈ l, m.Covers path → m.mountPrefix.length ≤ mnt.mountPrefix.length) ∧
    ∀ m ∈ r, m.Covers path → m.mountPrefix.length < mnt.mountPrefix.length

theorem matchesPrefix_iff {path : PathName} {mnt : MountPoint} : matchesPrefix path mnt ↔ mnt.Covers path := by
  have hlength : mnt.base.length = mnt.mountPrefix.length - 1 := List.length_dropLast
  have htake : mnt.mountPrefix.take (mnt.mountPrefix.length - 1) = mnt.base := (List.dropLast_eq_take).symm
  unfold matchesPrefix
  rw [htake, ← hlength]
  constructor
  · rintro ⟨heq, hle, hnext⟩
    refine ⟨path.drop mnt.base.length, ?_, ?_⟩
    · have hsplit := List.take_append_drop mnt.base.length path
      rw [heq] at hsplit
      exact hsplit.symm
    · rw [List.head?_drop]
      rcases hnext with hslash | hnone
      · exact .inr hslash
      · exact .inl (List.drop_eq_nil_iff.mpr (List.getElem?_eq_none_iff.mp hnone))
  · rintro ⟨s, rfl, hs⟩
    refine ⟨List.take_left, by simp, ?_⟩
    have hnext : (mnt.base ++ s)[mnt.base.length]? = s.head? := by
      rw [List.getElem?_append_right le_rfl, Nat.sub_self, List.head?_eq_getElem?]
    rw [hnext]
    rcases hs with rfl | hslash
    · exact .inr rfl
    · exact .inl hslash

/-! ### The loop over the mount points -/

/-- What the loop has found among the mount points it has seen. -/
def Found (path : PathName) (seen : List MountPoint) (largest : Option MountPoint × ℕ) : Prop :=
  match largest.1 with
  | none => largest.2 = 0 ∧ ∀ m ∈ seen, ¬m.Covers path
  | some mnt => largest.2 = mnt.mountPrefix.length - 1 ∧ LongestCover seen path mnt

/-- No mount point that covers the path is longer than the longest. -/
theorem LongestCover.le {mounts : List MountPoint} {path : PathName} {mnt m : MountPoint}
    (h : LongestCover mounts path mnt) (hm : m ∈ mounts) (hcovers : m.Covers path) :
    m.mountPrefix.length ≤ mnt.mountPrefix.length := by
  obtain ⟨l, r, rfl, -, hl, hr⟩ := h
  rcases List.mem_append.mp hm with hleft | hright
  · exact hl m hleft hcovers
  · rcases List.mem_cons.mp hright with rfl | hright
    · exact le_rfl
    · exact (hr m hright hcovers).le

theorem Found.step {path : PathName} {seen : List MountPoint} {largest : Option MountPoint × ℕ}
    (h : Found path seen largest) (mnt : MountPoint) : Found path (seen ++ [mnt]) (largerMount path largest mnt) := by
  have hpos := Vfs.prefix_pos mnt
  have hmatches : matchesPrefix path mnt ↔ mnt.Covers path := matchesPrefix_iff
  unfold largerMount
  by_cases hcovers : mnt.Covers path
  · by_cases hlarger : mnt.mountPrefix.length - 1 ≥ largest.2
    · rw [if_pos ⟨hlarger, hmatches.mpr hcovers⟩]
      refine ⟨rfl, seen, [], rfl, hcovers, fun m hm hm' => ?_, List.forall_mem_nil _⟩
      unfold Found at h
      cases hfirst : largest.1 with
      | none =>
        rw [hfirst] at h
        exact absurd hm' (h.2 m hm)
      | some best =>
        rw [hfirst] at h
        have hbest := h.2.le hm hm'
        have hlength : largest.2 = best.mountPrefix.length - 1 := h.1
        omega
    · rw [if_neg fun hboth => hlarger hboth.1]
      unfold Found at h ⊢
      cases hfirst : largest.1 with
      | none =>
        rw [hfirst] at h
        have hzero : largest.2 = 0 := h.1
        omega
      | some best =>
        rw [hfirst] at h
        obtain ⟨hlength, l, r, rfl, hbest, hl, hr⟩ := h
        refine ⟨hlength, l, r ++ [mnt], by simp, hbest, hl, fun m hm hm' => ?_⟩
        rcases List.mem_append.mp hm with hold | hnew
        · exact hr m hold hm'
        · rw [List.mem_singleton.mp hnew]
          omega
  · rw [if_neg fun hboth => hcovers (hmatches.mp hboth.2)]
    unfold Found at h ⊢
    cases hfirst : largest.1 with
    | none =>
      rw [hfirst] at h
      refine ⟨h.1, fun m hm => ?_⟩
      rcases List.mem_append.mp hm with hold | hnew
      · exact h.2 m hold
      · rwa [List.mem_singleton.mp hnew]
    | some best =>
      rw [hfirst] at h
      obtain ⟨hlength, l, r, rfl, hbest, hl, hr⟩ := h
      refine ⟨hlength, l, r ++ [mnt], by simp, hbest, hl, fun m hm hm' => ?_⟩
      rcases List.mem_append.mp hm with hold | hnew
      · exact hr m hold hm'
      · rw [List.mem_singleton.mp hnew] at hm'
        exact absurd hm' hcovers

theorem found_foldl {path : PathName} {seen mounts : List MountPoint} {largest : Option MountPoint × ℕ}
    (h : Found path seen largest) : Found path (seen ++ mounts) (mounts.foldl (largerMount path) largest) := by
  induction mounts generalizing seen largest with
  | nil =>
    rw [List.append_nil]
    exact h
  | cons mnt mounts ih =>
    have hnext := ih (h.step mnt)
    rwa [List.append_assoc] at hnext

theorem determine_found (mounts : List MountPoint) (path : PathName) :
    Found path mounts (mounts.foldl (largerMount path) (none, 0)) :=
  found_foldl (show Found path [] (none, 0) from ⟨rfl, List.forall_mem_nil _⟩)

/-! ### Stripping and putting back -/

theorem strip_append (mnt : MountPoint) (s : PathName) :
    fsStripMountpoint (mnt.base ++ s) mnt = if s = [] then root else s := by
  have hlength : mnt.base.length = mnt.mountPrefix.length - 1 := List.length_dropLast
  unfold fsStripMountpoint
  rw [← hlength, List.drop_left]

/-- The prefix is a canonical path and a slash, or the root. -/
def MountPoint.CanonicalPrefix (mnt : MountPoint) : Prop := mnt.base = [] ∨ (Canonical mnt.base ∧ mnt.base ≠ root)

theorem MountPoint.CanonicalPrefix.exists_names {mnt : MountPoint} (h : mnt.CanonicalPrefix) :
    ∃ names, (∀ c ∈ names, Kept c) ∧ mnt.base = spread slash names := by
  rcases h with hroot | ⟨hcanonical, hne⟩
  · exact ⟨[], List.forall_mem_nil _, hroot⟩
  · obtain ⟨names, hkept, heq⟩ := canonical_iff.mp hcanonical
    refine ⟨names, hkept, ?_⟩
    rw [heq, render, if_neg]
    rintro rfl
    exact hne heq

/-- Behind the prefix of the mount point, a canonical path stays what it is. -/
theorem strip_sanitize_resolve {mnt : MountPoint} {t : PathName} (hmnt : mnt.CanonicalPrefix) (ht : Canonical t)
    (cwd : PathName) : ∃ r, fsResolveSymlink mnt t = some r ∧ fsStripMountpoint (fsSanitize cwd r) mnt = t := by
  obtain ⟨names, hnames, hbase⟩ := hmnt.exists_names
  obtain ⟨parts, hparts, rfl⟩ := canonical_iff.mp ht
  have htake : mnt.mountPrefix.take (mnt.mountPrefix.length - 1) = spread slash names :=
    (List.dropLast_eq_take).symm.trans hbase
  have hresolve : fsResolveSymlink mnt (render parts) = some (spread slash names ++ render parts) := by
    have hhead := ht.1
    rw [← htake]
    cases hrender : render parts with
    | nil =>
      rw [hrender] at hhead
      cases hhead
    | cons c rest =>
      rw [hrender] at hhead
      obtain rfl : c = slash := Option.some.inj hhead
      rw [fsResolveSymlink, if_pos rfl]
  have hhead : (spread slash names ++ render parts).head? = some slash := by
    cases names with
    | nil => exact ht.1
    | cons a names => rfl
  have hkept : ∀ c ∈ names ++ parts, Kept c := fun c hc => (List.mem_append.mp hc).elim (hnames c) (hparts c)
  have hlexical : lexical (spread slash names ++ render parts) = render (names ++ parts) := by
    cases parts with
    | nil =>
      have htext : spread slash names ++ render [] = spread slash (names ++ [[]]) := by simp [render, root]
      have hslash : ∀ c ∈ names ++ [[]], slash ∉ c := by
        intro c hc
        rcases List.mem_append.mp hc with hold | hnew
        · exact (hnames c hold).1
        · rw [List.mem_singleton.mp hnew]
          exact List.not_mem_nil
      have hnormal : normal dropped dotdot (names ++ [[]]) = names := by
        rw [normal, List.foldl_append, foldl_push_kept fun c hc => (hnames c hc).2]
        rfl
      rw [htext, lexical, splitOn_spread hslash, normal_nil_cons, hnormal, List.append_nil]
    | cons a parts =>
      have htext : spread slash names ++ render (a :: parts) = render (names ++ a :: parts) := by
        rw [render, if_neg (List.cons_ne_nil a parts), render, if_neg (by simp), spread_append]
      rw [htext]
      exact lexical_of_canonical (canonical_iff.mpr ⟨_, hkept, rfl⟩)
  refine ⟨_, hresolve, ?_⟩
  rw [fsSanitize_absolute hhead, hlexical]
  cases parts with
  | nil =>
    rw [List.append_nil]
    cases names with
    | nil => exact (congrArg (fsStripMountpoint · mnt) (by rw [hbase]; rfl)).trans (strip_append mnt root)
    | cons a names =>
      have htext : render (a :: names) = mnt.base ++ [] := by
        rw [render, if_neg (List.cons_ne_nil a names), List.append_nil, hbase]
      rw [htext, strip_append]
      rfl
  | cons a parts =>
    have htext : render (names ++ a :: parts) = mnt.base ++ spread slash (a :: parts) := by
      rw [render, if_neg (by simp), spread_append, hbase]
    rw [htext, strip_append, if_neg (by simp), render, if_neg (List.cons_ne_nil a parts)]

/-- The mount point that is chosen is the longest that covers the path, the last of these; the
prefix is stripped up to its last slash; and resolving a canonical link, sanitising and stripping
give the link back. -/
theorem mount_chosen_and_stripped (mounts : List MountPoint) (path : PathName) :
    (∀ mnt, fsDetermineMountPoint mounts path = some mnt → LongestCover mounts path mnt) ∧
    (fsDetermineMountPoint mounts path = none ↔ ∀ m ∈ mounts, ¬m.Covers path) ∧
    (∀ mnt, fsDetermineMountPoint mounts path = some mnt → ∃ s, path = mnt.base ++ s ∧
      (s = [] ∧ fsStripMountpoint path mnt = root ∨ s.head? = some slash ∧ fsStripMountpoint path mnt = s)) ∧
    ∀ mnt ∈ mounts, ∀ t cwd, mnt.CanonicalPrefix → Canonical t →
      ∃ r, fsResolveSymlink mnt t = some r ∧ fsStripMountpoint (fsSanitize cwd r) mnt = t := by
  have hfound := determine_found mounts path
  have hlongest : ∀ mnt, fsDetermineMountPoint mounts path = some mnt → LongestCover mounts path mnt := by
    intro mnt hmnt
    unfold Found at hfound
    rw [show (mounts.foldl (largerMount path) (none, 0)).1 = some mnt from hmnt] at hfound
    exact hfound.2
  refine ⟨hlongest, ?_, fun mnt hmnt => ?_, fun mnt _ t cwd hmnt ht => strip_sanitize_resolve hmnt ht cwd⟩
  · constructor
    · intro hnone
      unfold Found at hfound
      rw [show (mounts.foldl (largerMount path) (none, 0)).1 = none from hnone] at hfound
      exact hfound.2
    · intro hnone
      cases hchosen : fsDetermineMountPoint mounts path with
      | none => rfl
      | some mnt =>
        obtain ⟨l, r, rfl, hcovers, -⟩ := hlongest mnt hchosen
        exact absurd hcovers (hnone mnt (by simp))
  · obtain ⟨l, r, -, ⟨s, rfl, hs⟩, -⟩ := hlongest mnt hmnt
    refine ⟨s, rfl, ?_⟩
    rw [strip_append]
    rcases hs with rfl | hslash
    · exact .inl ⟨rfl, rfl⟩
    · refine .inr ⟨hslash, if_neg ?_⟩
      rintro rfl
      cases hslash

/-- A link with a double slash comes back with a single one, and behind the prefix `/a//` a
canonical link comes back without its slash. -/
theorem link_changed_by_sanitizing :
    (let mnt : MountPoint := ⟨0, [47], rfl, true, true, true, true, true⟩
     ∃ r, fsResolveSymlink mnt [47, 97, 47, 47, 98] = some r ∧
      fsStripMountpoint (fsSanitize root r) mnt ≠ [47, 97, 47, 47, 98]) ∧
    (let mnt : MountPoint := ⟨0, [47, 97, 47, 47], rfl, true, true, true, true, true⟩
     ∃ r, fsResolveSymlink mnt [47, 120] = some r ∧ fsStripMountpoint (fsSanitize root r) mnt ≠ [47, 120]) :=
  ⟨⟨_, rfl, by decide +kernel⟩, ⟨_, rfl, by decide +kernel⟩⟩

end DualFuse.Filesystems.VfsPath
