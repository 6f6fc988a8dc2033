import DualFuse.Filesystems.Fat32Directory

/-! Walks along a chain of clusters. Nothing but the chain and the entries ends them: where
the table leads in a circle and no entry stops a walk, it goes on for ever, and a table that
leads to cluster 1 takes it there. -/

namespace DualFuse.Filesystems.Fat32

open Library Loop

section Walks
variable {σ ρ : Type} {start : σ → ℕ} {visit : ℕ → ℕ × Entry → σ → Exec (Round σ ρ)}

/-- The entries of one cluster, as an item of a scan over clusters. -/
def visitCluster (start : σ → ℕ) (visit : ℕ → ℕ × Entry → σ → Exec (Round σ ρ)) (fat : Fat32) (d : ℕ) (s : σ) :
    Exec (Round σ ρ) :=
  scan (visit d) (fat.entriesFrom d (start s)) s

/-- A cluster and the next `n` in the chain are from 2 on, and one of their entries gives the
result of the walk, or none stops it and the chain is over. -/
def ChainEndsAfter (start : σ → ℕ) (visit : ℕ → ℕ × Entry → σ → Exec (Round σ ρ)) (fat : Fat32) (c : ℕ) (s : σ)
    (n : ℕ) : Prop :=
  (∀ d ∈ c :: (fat.fatChainRest c n).2, 2 ≤ d) ∧
    ((∃ r, scan (visitCluster start visit fat) (c :: (fat.fatChainRest c n).2) s = .ok (.done r)) ∨
      (fat.fatChainRest c (n + 1)).2[n]? = some 0 ∧
        ∃ t, scan (visitCluster start visit fat) (c :: (fat.fatChainRest c n).2) s = .ok (.next t))

/-- The walk has a result, and passes clusters from 2 on. -/
structure WalkEnds (start : σ → ℕ) (visit : ℕ → ℕ × Entry → σ → Exec (Round σ ρ)) (w : Walk σ) : Prop where
  ends : Ends (clusterRound start visit) w
  clusters : ∀ w', Reaches (clusterRound start visit) w w' → 2 ≤ w'.directory

theorem SameVolume.entriesFrom {fat fat' : Fat32} (h : SameVolume fat fat') (c o : ℕ) :
    fat'.entriesFrom c o = fat.entriesFrom c o := by
  unfold Fat32.entriesFrom clusterToLba
  rw [h.getDiskBytes, h.offsetClusters, h.sectorsPerCluster, h.bytesPerCluster]

theorem fatTraverse_same (fat : Fat32) (c : ℕ) : SameVolume fat (fat.fatTraverse c).1 := (fat.fatTraverse_ring c).2.2

theorem SameVolume.visitCluster {fat fat' : Fat32} (h : SameVolume fat fat') :
    visitCluster start visit fat' = visitCluster start visit fat := by
  funext d s
  unfold Fat32.visitCluster
  rw [h.entriesFrom]

theorem fatChainRest_succ (fat : Fat32) (c n : ℕ) :
    (fat.fatChainRest c (n + 1)).2 =
      (fat.fatTraverse c).2 :: ((fat.fatTraverse c).1.fatChainRest (fat.fatTraverse c).2 n).2 := rfl

variable {fat : Fat32} {c : ℕ} {s t : σ}

/-- The walk has its result in this cluster. -/
def EndsHere (start : σ → ℕ) (visit : ℕ → ℕ × Entry → σ → Exec (Round σ ρ)) (fat : Fat32) (c : ℕ) (s : σ) : Prop :=
  (∃ r, visitCluster start visit fat c s = .ok (.done r)) ∨
    (fat.fatTraverse c).2 = 0 ∧ ∃ t, visitCluster start visit fat c s = .ok (.next t)

theorem chainEndsAfter_zero_iff :
    ChainEndsAfter start visit fat c s 0 ↔ 2 ≤ c ∧ EndsHere start visit fat c s := by
  have hrest : (fat.fatChainRest c 0).2 = [] := rfl
  have hlink : (fat.fatChainRest c (0 + 1)).2[0]? = some 0 ↔ (fat.fatTraverse c).2 = 0 := by
    rw [fatChainRest_succ, List.getElem?_cons_zero, Option.some_inj]
  unfold ChainEndsAfter EndsHere
  rw [hrest, hlink, List.forall_mem_singleton, scan_single]

/-- Where the walk goes on, the rest of the chain decides. -/
theorem chainEndsAfter_succ (hscan : visitCluster start visit fat c s = .ok (.next t)) (n : ℕ) :
    ChainEndsAfter start visit fat c s (n + 1) ↔
      2 ≤ c ∧ ChainEndsAfter start visit (fat.fatTraverse c).1 (fat.fatTraverse c).2 t n := by
  have hsame : visitCluster start visit (fat.fatTraverse c).1 = visitCluster start visit fat :=
    (fat.fatTraverse_same c).visitCluster
  unfold ChainEndsAfter
  rw [hsame, fatChainRest_succ fat c (n + 1), List.getElem?_cons_succ, fatChainRest_succ fat c n,
    scan_cons_next hscan, List.forall_mem_cons, and_assoc]

theorem walkEnds_of_done {w : Walk σ} {r : Walk (Round σ ρ)} (h : clusterRound start visit w = .ok (.done r)) :
    WalkEnds start visit w ↔ 2 ≤ w.directory := by
  have hlast : ∀ w', clusterRound start visit w ≠ .ok (.next w') := by
    intro w' hnext
    rw [h] at hnext
    cases hnext
  constructor
  · exact fun hw => hw.clusters w (.refl w)
  · intro hd
    refine ⟨⟨r, endsWith_done h⟩, fun w' hw' => ?_⟩
    rwa [(reaches_last_iff hlast).mp hw']

theorem walkEnds_of_next {w w' : Walk σ} (h : clusterRound start visit w = .ok (.next w')) :
    WalkEnds start visit w ↔ 2 ≤ w.directory ∧ WalkEnds start visit w' := by
  constructor
  · rintro ⟨⟨r, hr⟩, hclusters⟩
    exact ⟨hclusters w (.refl w), ⟨r, (endsWith_next_iff h).mp hr⟩, fun u hu => hclusters u (.step h hu)⟩
  · rintro ⟨hd, ⟨r, hr⟩, hclusters⟩
    refine ⟨⟨r, (endsWith_next_iff h).mpr hr⟩, fun u hu => ?_⟩
    rcases (reaches_next_iff h).mp hu with rfl | hu
    · exact hd
    · exact hclusters u hu

/-- A round leads to the next cluster, has the result, or fails. -/
inductive RoundIs (start : σ → ℕ) (visit : ℕ → ℕ × Entry → σ → Exec (Round σ ρ)) (fat : Fat32) (c : ℕ) (s : σ) : Prop
  | next (t : σ) (hscan : visitCluster start visit fat c s = .ok (.next t)) (hlink : (fat.fatTraverse c).2 ≠ 0)
      (hround : clusterRound start visit ⟨fat, c, s⟩ =
        .ok (.next ⟨(fat.fatTraverse c).1, (fat.fatTraverse c).2, t⟩))
  | done (r : Walk (Round σ ρ)) (hends : EndsHere start visit fat c s)
      (hround : clusterRound start visit ⟨fat, c, s⟩ = .ok (.done r))
  | error (x : Stop) (hscan : visitCluster start visit fat c s = .error x)
      (hround : clusterRound start visit ⟨fat, c, s⟩ = .error x)

theorem clusterRound_is (start : σ → ℕ) (visit : ℕ → ℕ × Entry → σ → Exec (Round σ ρ)) (fat : Fat32) (c : ℕ) (s : σ) :
    RoundIs start visit fat c s := by
  cases hscan : visitCluster start visit fat c s with
  | error x => exact .error x hscan (clusterRound_of_error (w := ⟨fat, c, s⟩) hscan)
  | ok a =>
    cases a with
    | done r => exact .done _ (Or.inl ⟨r, hscan⟩) (clusterRound_of_done (w := ⟨fat, c, s⟩) hscan)
    | next t =>
      have hround := clusterRound_of_next (w := ⟨fat, c, s⟩) hscan
      by_cases hlink : (fat.fatTraverse c).2 = 0
      · rw [if_pos hlink] at hround
        exact .done _ (Or.inr ⟨hlink, t, hscan⟩) hround
      · rw [if_neg hlink] at hround
        exact .next t hscan hlink hround

/-- A walk ends exactly if its chain does. -/
theorem walkEnds_iff (fat : Fat32) (c : ℕ) (s : σ) :
    WalkEnds start visit ⟨fat, c, s⟩ ↔ ∃ n, ChainEndsAfter start visit fat c s n := by
  constructor
  · intro h
    obtain ⟨r, n, hn⟩ := h.ends
    induction n generalizing fat c s with
    | zero => cases hn
    | succ n ih =>
      cases clusterRound_is start visit fat c s with
      | next t hscan hlink hround =>
        obtain ⟨hc, hrest⟩ := (walkEnds_of_next hround).mp h
        rw [run_next hround] at hn
        obtain ⟨m, hm⟩ := ih _ _ _ hrest hn
        exact ⟨m + 1, (chainEndsAfter_succ hscan m).mpr ⟨hc, hm⟩⟩
      | done r' hends hround =>
        exact ⟨0, chainEndsAfter_zero_iff.mpr ⟨(walkEnds_of_done hround).mp h, hends⟩⟩
      | error x hscan hround =>
        rw [run_error hround] at hn
        cases hn
  · rintro ⟨n, hn⟩
    induction n generalizing fat c s with
    | zero =>
      obtain ⟨hc, hends⟩ := chainEndsAfter_zero_iff.mp hn
      cases clusterRound_is start visit fat c s with
      | next t hscan hlink hround =>
        rcases hends with ⟨r, hdone⟩ | ⟨hzero, -⟩
        · rw [hscan] at hdone
          cases hdone
        · exact absurd hzero hlink
      | done r hends' hround => exact (walkEnds_of_done hround).mpr hc
      | error x hscan hround =>
        rw [EndsHere, hscan] at hends
        rcases hends with ⟨r, hdone⟩ | ⟨-, t, hnext⟩
        · cases hdone
        · cases hnext
    | succ n ih =>
      cases clusterRound_is start visit fat c s with
      | next t hscan hlink hround =>
        obtain ⟨hc, hrest⟩ := (chainEndsAfter_succ hscan n).mp hn
        exact (walkEnds_of_next hround).mpr ⟨hc, ih _ _ _ hrest⟩
      | done r hends hround => exact (walkEnds_of_done hround).mpr (hn.1 c List.mem_cons_self)
      | error x hscan hround =>
        obtain ⟨-, ⟨r, hdone⟩ | ⟨-, t, hnext⟩⟩ := hn
        · rw [scan_cons_error hscan] at hdone
          cases hdone
        · rw [scan_cons_error hscan] at hnext
          cases hnext

variable {w w' : Walk σ}

theorem reaches_sameVolume (h : Reaches (clusterRound start visit) w w') : SameVolume w.fat w'.fat := by
  refine h.invariant (fun u => SameVolume w.fat u.fat) (fun u u' hu hround => ?_) (.refl w.fat)
  obtain ⟨-, hfat, -⟩ := clusterRound_next hround
  rw [hfat]
  exact hu.trans (u.fat.fatTraverse_same u.directory)

/-- The last round: an entry has given the result, or the chain is over. -/
theorem clusterRound_done {r : Walk (Round σ ρ)} (h : clusterRound start visit w = .ok (.done r)) :
    (∃ x, r = ⟨w.fat, w.directory, .done x⟩ ∧
      scan (visit w.directory) (w.fat.entriesFrom w.directory (start w.gathered)) w.gathered = .ok (.done x)) ∨
    ∃ s, r = ⟨(w.fat.fatTraverse w.directory).1, 0, .next s⟩ ∧
      scan (visit w.directory) (w.fat.entriesFrom w.directory (start w.gathered)) w.gathered = .ok (.next s) := by
  cases hscan : scan (visit w.directory) (w.fat.entriesFrom w.directory (start w.gathered)) w.gathered with
  | error x =>
    rw [clusterRound_of_error hscan] at h
    cases h
  | ok a =>
    cases a with
    | done x =>
      rw [clusterRound_of_done hscan] at h
      cases h
      exact Or.inl ⟨x, rfl, rfl⟩
    | next s =>
      rw [clusterRound_of_next hscan] at h
      by_cases hlink : (w.fat.fatTraverse w.directory).2 = 0
      · rw [if_pos hlink] at h
        cases h
        exact Or.inr ⟨s, rfl, rfl⟩
      · rw [if_neg hlink] at h
        cases h

theorem run_sameVolume {n : ℕ} {r : Walk (Round σ ρ)} (h : run (clusterRound start visit) n w = .ok (some r)) :
    SameVolume w.fat r.fat := by
  obtain ⟨u, hreaches, hdone⟩ := run_some h
  rcases clusterRound_done hdone with ⟨x, rfl, -⟩ | ⟨s, rfl, -⟩
  · exact reaches_sameVolume hreaches
  · exact (reaches_sameVolume hreaches).trans (u.fat.fatTraverse_same u.directory)

end Walks

/-! ### A chain as a list of entries -/

/-- An entry with its cluster and its place there. -/
abbrev Slot := ℕ × ℕ × Entry

def slotsOf (fat : Fat32) (clusters : List ℕ) : List Slot :=
  clusters.flatMap fun d => (fat.entriesFrom d 0).map fun p => (d, p)

/-- A directory of `n + 1` clusters. -/
structure DirChain (fat : Fat32) (c n : ℕ) : Prop where
  ended : (fat.fatChainRest c (n + 1)).2[n]? = some 0
  clusters : ∀ d ∈ c :: (fat.fatChainRest c n).2, 2 ≤ d
  nodup : (c :: (fat.fatChainRest c n).2).Nodup

def dirSlots (fat : Fat32) (c n : ℕ) : List Slot := fat.slotsOf (c :: (fat.fatChainRest c n).2)

section Slots
variable {σ ρ : Type} {visit : ℕ → ℕ × Entry → σ → Exec (Round σ ρ)} {fat : Fat32}

/-- A result with the cluster that it was found in. -/
def tag (d : ℕ) : Round σ ρ → Round σ (ℕ × ρ)
  | .done r => .done (d, r)
  | .next s => .next s

def visitSlot (visit : ℕ → ℕ × Entry → σ → Exec (Round σ ρ)) (q : Slot) (s : σ) : Exec (Round σ (ℕ × ρ)) := do
  let a ← visit q.1 q.2 s
  .ok (tag q.1 a)

/-- Where a walk is that has come to this. -/
def endOf (fat : Fat32) : Round σ (ℕ × ρ) → Walk (Round σ ρ)
  | .done (d, r) => ⟨fat, d, .done r⟩
  | .next s => ⟨fat, 0, .next s⟩

theorem scan_visitSlot (visit : ℕ → ℕ × Entry → σ → Exec (Round σ ρ)) (d : ℕ) (l : List (ℕ × Entry)) (s : σ) :
    scan (visitSlot visit) (l.map fun p => (d, p)) s = scan (visit d) l s >>= fun a => .ok (tag d a) := by
  induction l generalizing s with
  | nil => rfl
  | cons p l ih =>
    rw [List.map_cons]
    have hslot : visitSlot visit (d, p) s = visit d p s >>= fun a => .ok (tag d a) := rfl
    cases hvisit : visit d p s with
    | error x =>
      rw [hvisit, Exec.error_bind] at hslot
      rw [scan_cons_error hvisit, scan_cons_error hslot, Exec.error_bind]
    | ok a =>
      rw [hvisit, Exec.ok_bind] at hslot
      cases a with
      | done r => rw [scan_cons_done hvisit, scan_cons_done hslot, Exec.ok_bind, tag]
      | next t => rw [scan_cons_next hvisit, scan_cons_next hslot, ih]

theorem SameVolume.slotsOf {fat' : Fat32} (h : SameVolume fat fat') (clusters : List ℕ) :
    fat'.slotsOf clusters = fat.slotsOf clusters := by
  unfold Fat32.slotsOf
  simp only [h.entriesFrom]

theorem dirSlots_eq (fat : Fat32) (c n : ℕ) :
    fat.dirSlots c n = ((fat.entriesFrom c 0).map fun p => (c, p)) ++ fat.slotsOf (fat.fatChainRest c n).2 := rfl

/-- A walk that does not get past its first cluster. -/
theorem run_eq_scan_of_stops {start : σ → ℕ} {c : ℕ} {s : σ}
    (h : ∀ t, scan (visit c) (fat.entriesFrom c (start s)) s ≠ .ok (.next t)) (n : ℕ) (l : List Slot) :
    run (clusterRound start visit) (n + 1) ⟨fat, c, s⟩ =
      scan (visitSlot visit) (((fat.entriesFrom c (start s)).map fun p => (c, p)) ++ l) s >>=
        fun a => .ok (some (endOf fat a)) := by
  have hslots := scan_visitSlot visit c (fat.entriesFrom c (start s)) s
  cases hscan : scan (visit c) (fat.entriesFrom c (start s)) s with
  | error x =>
    have hround : clusterRound start visit ⟨fat, c, s⟩ = .error x := clusterRound_of_error hscan
    rw [hscan, Exec.error_bind] at hslots
    rw [run_error hround, scan_append_error hslots, Exec.error_bind]
  | ok a =>
    rw [hscan, Exec.ok_bind] at hslots
    cases a with
    | done r =>
      have hround : clusterRound start visit ⟨fat, c, s⟩ = .ok (.done ⟨fat, c, .done r⟩) :=
        clusterRound_of_done hscan
      rw [run_done hround, scan_append_done hslots]
      rfl
    | next t => exact absurd hscan (h t)

/-- A walk along a chain that ends is a scan of its entries, if it begins at the start of each
cluster but the first. -/
theorem run_eq_scan_from {start : σ → ℕ} (visit : ℕ → ℕ × Entry → σ → Exec (Round σ ρ)) (inv : σ → Prop)
    (fat : Fat32) (c n : ℕ)
    (hstart : ∀ d s t, inv s → scan (visit d) (fat.entriesFrom d (start s)) s = .ok (.next t) → inv t ∧ start t = 0)
    (hended : (fat.fatChainRest c (n + 1)).2[n]? = some 0) (hclusters : ∀ d ∈ (fat.fatChainRest c n).2, d ≠ 0)
    {s : σ} (hs : inv s) :
    ∃ fat', run (clusterRound start visit) (n + 1) ⟨fat, c, s⟩ =
      scan (visitSlot visit) (((fat.entriesFrom c (start s)).map fun p => (c, p)) ++ fat.slotsOf (fat.fatChainRest c n).2) s >>=
        fun a => .ok (some (endOf fat' a)) := by
  induction n generalizing fat c s with
  | zero =>
    by_cases hnext : ∃ t, scan (visit c) (fat.entriesFrom c (start s)) s = .ok (.next t)
    · obtain ⟨t, hscan⟩ := hnext
      have hlink : (fat.fatTraverse c).2 = 0 := Option.some.inj hended
      have hround : clusterRound start visit ⟨fat, c, s⟩ = .ok (.done ⟨(fat.fatTraverse c).1, 0, .next t⟩) := by
        rw [clusterRound_of_next hscan, if_pos hlink]
      have hslots := scan_visitSlot visit c (fat.entriesFrom c (start s)) s
      rw [hscan, Exec.ok_bind] at hslots
      rw [run_done hround, scan_append_next hslots]
      exact ⟨(fat.fatTraverse c).1, rfl⟩
    · exact ⟨fat, run_eq_scan_of_stops (fun t ht => hnext ⟨t, ht⟩) 0 _⟩
  | succ n ih =>
    by_cases hnext : ∃ t, scan (visit c) (fat.entriesFrom c (start s)) s = .ok (.next t)
    · obtain ⟨t, hscan⟩ := hnext
      have hlink : (fat.fatTraverse c).2 ≠ 0 := hclusters _ List.mem_cons_self
      have hround : clusterRound start visit ⟨fat, c, s⟩ =
          .ok (.next ⟨(fat.fatTraverse c).1, (fat.fatTraverse c).2, t⟩) := by
        rw [clusterRound_of_next hscan, if_neg hlink]
      have hslots := scan_visitSlot visit c (fat.entriesFrom c (start s)) s
      rw [hscan, Exec.ok_bind] at hslots
      obtain ⟨ht, hzero⟩ := hstart c s t hs hscan
      have hsame := fat.fatTraverse_same c
      obtain ⟨fat', hrun⟩ := ih (fat.fatTraverse c).1 (fat.fatTraverse c).2
        (fun d s t => by rw [hsame.entriesFrom]; exact hstart d s t) hended
        (fun d hd => hclusters d (List.mem_cons_of_mem _ hd)) ht
      rw [hzero, ← dirSlots_eq, dirSlots, hsame.slotsOf] at hrun
      rw [run_next hround, scan_append_next hslots, fatChainRest_succ]
      exact ⟨fat', hrun⟩
    · exact ⟨fat, run_eq_scan_of_stops (fun t ht => hnext ⟨t, ht⟩) (n + 1) _⟩

theorem run_eq_scan (visit : ℕ → ℕ × Entry → σ → Exec (Round σ ρ)) (fat : Fat32) (c n : ℕ)
    (hended : (fat.fatChainRest c (n + 1)).2[n]? = some 0) (hclusters : ∀ d ∈ (fat.fatChainRest c n).2, d ≠ 0)
    (s : σ) :
    ∃ fat', run (clusterRound (fun _ => 0) visit) (n + 1) ⟨fat, c, s⟩ =
      scan (visitSlot visit) (fat.dirSlots c n) s >>= fun a => .ok (some (endOf fat' a)) :=
  run_eq_scan_from visit (fun _ => True) fat c n (fun _ _ _ _ _ => ⟨trivial, rfl⟩) hended hclusters trivial

end Slots

/-! ### The two calls -/

/-- A search comes back, and passes clusters from 2 on. -/
structure TraverseEnds (fat : Fat32) (initDirectory : ℕ) (search : List (BitVec 8)) : Prop where
  ends : ∃ n r, fat32Traverse n fat initDirectory search = .ok (some r)
  clusters : ∀ w, Reaches (traverseRound search) ⟨fat, initDirectory, .cleared⟩ w → 2 ≤ w.directory

def listStart (fat : Fat32) (place : Place) : Walk Listing := ⟨fat, place.directoryCurr, ⟨.cleared, place.ptr, 0, []⟩⟩

/-- A call for the entries comes back, and passes clusters from 2 on. -/
structure ListEnds (fat : Fat32) (place : Place) (hardlimit : ℕ) : Prop where
  ends : ∃ n r, fat32GetDents64 n fat place hardlimit = .ok (some r)
  clusters : place.directoryCurr ≠ 0 → ∀ w, Reaches (listRound fat.bytesPerCluster hardlimit) (listStart fat place) w →
    2 ≤ w.directory

theorem traverseEnds_iff (fat : Fat32) (initDirectory : ℕ) (search : List (BitVec 8)) :
    TraverseEnds fat initDirectory search ↔
      WalkEnds (fun _ => 0) (fun _ => traverseVisit search) ⟨fat, initDirectory, .cleared⟩ := by
  have hends : (∃ n r, fat32Traverse n fat initDirectory search = .ok (some r)) ↔
      Ends (traverseRound search) ⟨fat, initDirectory, .cleared⟩ := by
    unfold fat32Traverse traverseWalk
    constructor
    · rintro ⟨n, r, hn⟩
      cases hrun : run (traverseRound search) n ⟨fat, initDirectory, .cleared⟩ with
      | error x =>
        rw [hrun, Exec.error_bind] at hn
        cases hn
      | ok a =>
        cases a with
        | none =>
          rw [hrun] at hn
          cases hn
        | some w => exact ⟨w, n, hrun⟩
    · rintro ⟨w, n, hrun⟩
      refine ⟨n, (w.fat, resultOf w), ?_⟩
      rw [hrun]
      rfl
  exact ⟨fun h => ⟨hends.mp h.ends, h.clusters⟩, fun h => ⟨hends.mpr h.ends, h.clusters⟩⟩

theorem listEnds_iff {fat : Fat32} {place : Place} (hcurr : place.directoryCurr ≠ 0) (hsize : fat.bytesPerCluster ≠ 0)
    (hardlimit : ℕ) :
    ListEnds fat place hardlimit ↔
      WalkEnds (fun s => s.ptr % fat.bytesPerCluster) (listVisit hardlimit) (listStart fat place) := by
  have hends : (∃ n r, fat32GetDents64 n fat place hardlimit = .ok (some r)) ↔
      Ends (listRound fat.bytesPerCluster hardlimit) (listStart fat place) := by
    unfold fat32GetDents64
    simp only [if_neg hcurr, if_neg hsize]
    constructor
    · rintro ⟨n, r, hn⟩
      cases hrun : run (listRound fat.bytesPerCluster hardlimit) n (listStart fat place) with
      | error x =>
        unfold listStart at hrun
        rw [hrun, Exec.error_bind] at hn
        cases hn
      | ok a =>
        cases a with
        | none =>
          unfold listStart at hrun
          rw [hrun] at hn
          cases hn
        | some w => exact ⟨w, n, hrun⟩
    · rintro ⟨w, n, hrun⟩
      unfold listStart at hrun
      refine ⟨n, (w.fat, replyOf w), ?_⟩
      rw [hrun]
      rfl
  exact ⟨fun h => ⟨hends.mp h.ends, h.clusters hcurr⟩, fun h => ⟨hends.mpr h.ends, fun _ => h.clusters⟩⟩

/-- Where the table on the disk leads from a cluster. -/
def link (fat : Fat32) (c : ℕ) : ℕ := nextCluster (fat.fatEntry c)

theorem link_lt (fat : Fat32) (c : ℕ) : fat.link c < 2 ^ 28 := by
  have hentry : fat.fatEntry c ≤ 0x0FFFFFFF := Nat.and_le_right
  unfold link nextCluster
  split_ifs <;> omega

theorem SameVolume.link {fat fat' : Fat32} (h : SameVolume fat fat') : fat'.link = fat.link := by
  funext c
  unfold Fat32.link
  rw [h.fatEntry]

/-- With a true cache and a table that has numbers for all its sectors, the chain is the one on
the disk. -/
theorem fatChainRest_eq_iterate {fat : Fat32} (hcache : CacheSound fat) (htable : fat.offsetFats + 2 ^ 21 < fat32CacheBad)
    {c : ℕ} (hc : c < 2 ^ 28) (n : ℕ) : (fat.fatChainRest c n).2 = List.iterate fat.link (fat.link c) n := by
  induction n generalizing fat c with
  | zero => rfl
  | succ n ih =>
    have hplace : fat.offsetFats + c * 4 / sectorSize < fat32CacheBad := by
      simp only [sectorSize]
      omega
    have hnext : (fat.fatTraverse c).2 = fat.link c := fatTraverse_next hcache (by omega) hplace
    obtain ⟨hcache', hsame⟩ := fatTraverse_walked hcache c
    have htable' : (fat.fatTraverse c).1.offsetFats + 2 ^ 21 < fat32CacheBad := by
      rw [hsame.offsetFats]
      exact htable
    rw [fatChainRest_succ, hnext, ih hcache' htable' (fat.link_lt c), hsame.link]
    rfl

/-- A volume whose root directory is empty and leads to itself. -/
def selfLinked : Fat32 where
  disk i := if i = 520 then 2 else 0
  offsetFats := 1
  offsetClusters := 2
  sectorsPerCluster := 1
  cache := List.replicate 32 (0xFFFFFFFF, List.replicate 512 0)
  cacheCurr := 0

theorem selfLinked_chain (n : ℕ) : (selfLinked.fatChainRest 2 n).2 = List.replicate n 2 := by
  have hcache : CacheSound selfLinked := by
    intro e he hbad
    rw [List.eq_of_mem_replicate he] at hbad
    exact absurd rfl hbad
  have hlink : selfLinked.link 2 = 2 := by decide +kernel
  rw [fatChainRest_eq_iterate hcache (by decide) (by decide), hlink]
  induction n with
  | zero => rfl
  | succ n ih => rw [List.iterate, hlink, ih, List.replicate_succ]

theorem traverseVisit_idle {e : Entry} (hfragment : e.isFragment = false) (hnode : e.isNode = false)
    (search : List (BitVec 8)) (i : ℕ) (long : LongName) :
    traverseVisit search (i, e) long = .ok (.next long) := by
  simp [traverseVisit, LongName.noted, traverseNode, hfragment, hnode]

end DualFuse.Filesystems.Fat32
