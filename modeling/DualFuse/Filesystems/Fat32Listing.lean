import DualFuse.Filesystems.Fat32Names
import DualFuse.Library.Batches

/-! Listing a FAT32 directory by calls (`fat32_get_dents64` of `fat32_dirs.cpp`, `dents_add`
of `dents.cpp`). A call fills its buffer with the entries ahead. What was gathered of a long
name is gone when the next call begins, and the entry where the last one stopped comes with
its short name. -/

namespace DualFuse.Filesystems.Fat32

open Library Loop Utility RecordLoop

/-! ### The entries that are listed -/

/-- The bytes that are listed as the name of an entry. -/
def listedName (long : LongName) (e : Entry) : List (BitVec 8) :=
  if 0 ≤ long.lfnLast then CString.content long.lfnName else sfnToNormal e

/-- A file or a directory with its name. -/
structure Item where
  slot : Slot
  filename : List (BitVec 8)
  deriving DecidableEq

namespace Item

def dirent (x : Item) : Dirent := ⟨inodeGen x.slot.1 (x.slot.2.1 / 32), direntType x.slot.2.2, x.filename⟩

/-- The item where nothing was gathered. -/
def again (x : Item) : Item := ⟨x.slot, sfnToNormal x.slot.2.2⟩

end Item

/-- What is read in the buffer: the name ends at its terminator. -/
def asRead (d : Dirent) : Dirent := { d with filename := CString.content d.filename }

/-- The files and directories of slots, after what was gathered. -/
def itemsFrom (long : LongName) : List Slot → List Item
  | [] => []
  | q :: l =>
    if q.2.2.isNode then ⟨q, listedName long q.2.2⟩ :: itemsFrom .cleared l else itemsFrom (long.after q.2.2) l

/-- `dents_add`, for these items. -/
def listing : Batching Item Dirent where
  size x := x.dirent.reclen
  again := Item.again
  shown x := asRead x.dirent
  bound := 2 ^ 31
  spare := 2
  bound_pos := by decide
  again_again _ := rfl

/-- The number of a fragment is from 1 to 19. -/
def Entry.Numbered (e : Entry) : Prop := e.isFragment → 0 ≤ e.index ∧ e.index ≤ 18

instance (e : Entry) : Decidable e.Numbered := inferInstanceAs (Decidable (_ → _))

variable {long : LongName} {hardlimit : ℕ} {l l' : List Slot} {s t u : Listing}

theorem itemsFrom_append (long : LongName) (l l' : List Slot) :
    itemsFrom long (l ++ l') = itemsFrom long l ++ itemsFrom (l.foldl (fun long q => long.after q.2.2) long) l' := by
  induction l generalizing long with
  | nil => rfl
  | cons q l ih =>
    rw [List.cons_append, itemsFrom, itemsFrom, List.foldl_cons]
    split_ifs with hnode
    · rw [ih, List.cons_append, LongName.after, if_pos hnode]
    · exact ih _

theorem itemsFrom_cons_of_node {q : Slot} (h : q.2.2.isNode) (long : LongName) (l : List Slot) :
    itemsFrom long (q :: l) = ⟨q, listedName long q.2.2⟩ :: itemsFrom .cleared l := if_pos h

theorem itemsFrom_slots (long : LongName) (l : List Slot) :
    (itemsFrom long l).map Item.slot = l.filter fun q => q.2.2.isNode := by
  induction l generalizing long with
  | nil => rfl
  | cons q l ih =>
    rw [itemsFrom]
    split_ifs with hnode
    · rw [List.map_cons, ih, List.filter_cons, if_pos hnode]
    · rw [ih, List.filter_cons, if_neg hnode]

/-! ### One entry -/

theorem LongName.Bounded.listedBytes_eq (h : long.Bounded) (e : Entry) :
    Fat32.listedBytes long e = .ok (listedName long e) := by
  have hlength := h.length
  have hnormal := length_sfnToNormal e
  unfold lfnMaxTotalChars at hlength
  unfold Fat32.listedBytes listedName
  split_ifs with hlast
  · exact h.text_eq
  · dsimp only
    rw [CString.memcpy, if_pos (by omega), Exec.ok_bind]
    simp

/-- What slots and the items among them do to a call. -/
structure Moved (s t : Listing) (k : ℕ) (p : List Item) : Prop where
  ptr : t.ptr ≡ s.ptr + 32 * k [MOD 2 ^ 32]
  allocatedlimit : t.allocatedlimit = s.allocatedlimit + listing.total p
  entries : t.entries = s.entries ++ p.map Item.dirent

theorem Moved.refl (s : Listing) : Moved s s 0 [] where
  ptr := Nat.ModEq.refl _
  allocatedlimit := rfl
  entries := (List.append_nil _).symm

theorem Moved.trans {k m : ℕ} {p r : List Item} (h : Moved s t k p) (h' : Moved t u m r) :
    Moved s u (k + m) (p ++ r) where
  ptr := by
    rw [Nat.mul_add, ← Nat.add_assoc]
    exact h'.ptr.trans (h.ptr.add_right _)
  allocatedlimit := by rw [h'.allocatedlimit, h.allocatedlimit, Batching.total_append, Nat.add_assoc]
  entries := by rw [h'.entries, h.entries, List.map_append, List.append_assoc]

/-- A file or a directory is added if there is room for it. -/
theorem visitSlot_node (hs : s.long.Bounded) {q : Slot} (hnode : q.2.2.isNode) (hardlimit : ℕ) :
    let x : Item := ⟨q, listedName s.long q.2.2⟩
    if listing.Full hardlimit s.allocatedlimit (listing.size x) then
      visitSlot (listVisit hardlimit) q s = .ok (.done (q.1, s))
    else ∃ t, visitSlot (listVisit hardlimit) q s = .ok (.next t) ∧ t.long = .cleared ∧ Moved s t 1 [x] := by
  intro x
  have hnoted : s.long.noted q.2.2 = .ok s.long :=
    if_neg (by rw [Entry.isFragment_of_isNode hnode]; exact Bool.false_ne_true)
  have hvisit : listVisit hardlimit q.1 q.2 s =
      .ok (if listing.Full hardlimit s.allocatedlimit (listing.size x) then .done s
        else .next ⟨.cleared, (s.ptr + 32) % 2 ^ 32, s.allocatedlimit + listing.size x, s.entries ++ [x.dirent]⟩) := by
    rw [listVisit, hnoted, Exec.ok_bind, listNode, if_pos hnode, hs.listedBytes_eq, Exec.ok_bind]
    exact (apply_ite Except.ok _ _ _).symm
  split_ifs with hfull
  · rw [visitSlot, hvisit, if_pos hfull]
    rfl
  · rw [if_neg hfull] at hvisit
    exact ⟨_, by rw [visitSlot, hvisit, Exec.ok_bind, tag], rfl, Nat.mod_modEq _ _, by simp, rfl⟩

/-- Another entry is gathered or passed. -/
theorem visitSlot_other (hs : s.long.Bounded) {q : Slot} (hnumber : q.2.2.Numbered) (hnode : ¬q.2.2.isNode)
    (hardlimit : ℕ) :
    ∃ t, visitSlot (listVisit hardlimit) q s = .ok (.next t) ∧ t.long = s.long.after q.2.2 ∧ Moved s t 1 [] := by
  have hvisit : listVisit hardlimit q.1 q.2 s =
      .ok (.next { s with long := s.long.after q.2.2, ptr := (s.ptr + 32) % 2 ^ 32 }) := by
    rw [listVisit, hs.noted_of_number hnumber, Exec.ok_bind, listNode, if_neg hnode, LongName.after, if_neg hnode]
  exact ⟨{ s with long := s.long.after q.2.2, ptr := (s.ptr + 32) % 2 ^ 32 },
    by rw [visitSlot, hvisit, Exec.ok_bind, tag], rfl, Nat.mod_modEq _ _, rfl, (List.append_nil _).symm⟩

/-! ### The slots ahead -/

/-- What a call does with slots: it lists them all, or it stops at one. -/
inductive Filled (hardlimit : ℕ) (l : List Slot) (s : Listing) : Prop
  | all (t : Listing) (hfill : (listing.fill hardlimit s.allocatedlimit (itemsFrom s.long l)).2 = [])
      (hscan : scan (visitSlot (listVisit hardlimit)) l s = .ok (.next t)) (hbounded : t.long.Bounded)
      (hmoved : Moved s t l.length (listing.fill hardlimit s.allocatedlimit (itemsFrom s.long l)).1)
  | stopped (before : List Slot) (x : Item) (after : List Slot) (t : Listing) (hsplit : l = before ++ x.slot :: after)
      (hnode : x.slot.2.2.isNode)
      (hfill : (listing.fill hardlimit s.allocatedlimit (itemsFrom s.long l)).2 = x :: itemsFrom .cleared after)
      (hscan : scan (visitSlot (listVisit hardlimit)) l s = .ok (.done (x.slot.1, t)))
      (hmoved : Moved s t before.length (listing.fill hardlimit s.allocatedlimit (itemsFrom s.long l)).1)

theorem Filled.cons {q : Slot} {p : List Item} (hvisit : visitSlot (listVisit hardlimit) q s = .ok (.next t))
    (hmoved : Moved s t 1 p)
    (hfill : listing.fill hardlimit s.allocatedlimit (itemsFrom s.long (q :: l)) =
      (p ++ (listing.fill hardlimit t.allocatedlimit (itemsFrom t.long l)).1,
        (listing.fill hardlimit t.allocatedlimit (itemsFrom t.long l)).2))
    (h : Filled hardlimit l t) : Filled hardlimit (q :: l) s := by
  cases h with
  | all u hfill' hscan hbounded hmoved' =>
    refine .all u (by rw [hfill]; exact hfill') (by rw [scan_cons_next hvisit]; exact hscan) hbounded ?_
    rw [hfill, List.length_cons, Nat.add_comm]
    exact hmoved.trans hmoved'
  | stopped before x after u hsplit hnode hfill' hscan hmoved' =>
    refine .stopped (q :: before) x after u (by rw [hsplit, List.cons_append]) hnode (by rw [hfill]; exact hfill')
      (by rw [scan_cons_next hvisit]; exact hscan) ?_
    rw [hfill, List.length_cons, Nat.add_comm]
    exact hmoved.trans hmoved'

theorem filled (hs : s.long.Bounded) (hnumbers : ∀ q ∈ l, q.2.2.Numbered) : Filled hardlimit l s := by
  induction l generalizing s with
  | nil => exact .all s rfl rfl hs (.refl s)
  | cons q l ih =>
    have hrest : ∀ q ∈ l, q.2.2.Numbered := fun q' hq' => hnumbers q' (List.mem_cons_of_mem q hq')
    by_cases hnode : q.2.2.isNode
    · have hvisit := visitSlot_node hs hnode hardlimit
      have hitems := itemsFrom_cons_of_node hnode s.long l
      dsimp only at hvisit
      split_ifs at hvisit with hfull
      · have hfill : listing.fill hardlimit s.allocatedlimit (itemsFrom s.long (q :: l)) =
            ([], ⟨q, listedName s.long q.2.2⟩ :: itemsFrom .cleared l) := by
          rw [hitems, Batching.fill_stop hfull]
        refine .stopped [] ⟨q, listedName s.long q.2.2⟩ l s rfl hnode (by rw [hfill]) (scan_cons_done hvisit l) ?_
        rw [hfill]
        exact .refl s
      · obtain ⟨t, hvisit, hlong, hmoved⟩ := hvisit
        refine Filled.cons hvisit hmoved ?_ (ih (by rw [hlong]; exact LongName.bounded_cleared) hrest)
        rw [hitems, Batching.fill, if_neg hfull, hlong, hmoved.allocatedlimit, Batching.total_cons, Batching.total_nil]
        rfl
    · obtain ⟨t, hvisit, hlong, hmoved⟩ := visitSlot_other hs (hnumbers q List.mem_cons_self) hnode hardlimit
      refine Filled.cons hvisit hmoved ?_ (ih (by rw [hlong]; exact hs.after q.2.2) hrest)
      rw [itemsFrom, if_neg hnode, hlong, hmoved.allocatedlimit]
      rfl

/-! ### Places in a directory -/

section Places
variable {fat fat' : Fat32} {c d n m o ptr : ℕ} {place : Place} {before after : List Slot} {q : Slot}

/-- A chain of `m + 1` clusters on the disk. -/
structure ChainFrom (fat : Fat32) (d m : ℕ) : Prop where
  small : d < 2 ^ 28
  clusters : ∀ d' ∈ d :: List.iterate fat.link (fat.link d) m, d' ≠ 0
  ended : (List.iterate fat.link (fat.link d) (m + 1))[m]? = some 0

/-- The slots from byte `o` of a cluster on. -/
def slotsAhead (fat : Fat32) (d m o : ℕ) : List Slot :=
  ((fat.entriesFrom d o).map fun p => (d, p)) ++ fat.slotsOf (List.iterate fat.link (fat.link d) m)

/-- The slots that are ahead of a place, which is the end of the directory or in a cluster. -/
inductive At (fat : Fat32) (n : ℕ) : Place → List Slot → Prop
  | finish (ptr : ℕ) : At fat n ⟨ptr, 0⟩ []
  | inside {ptr d m : ℕ} (hm : m ≤ n) (hchain : ChainFrom fat d m) (hptr : 32 ∣ ptr) :
      At fat n ⟨ptr, d⟩ (fat.slotsAhead d m (ptr % fat.bytesPerCluster))

theorem ChainFrom.next (h : ChainFrom fat d (m + 1)) : ChainFrom fat (fat.link d) m where
  small := fat.link_lt d
  clusters d' hd' := h.clusters d' (List.mem_cons_of_mem d hd')
  ended := h.ended

theorem length_entriesFrom (fat : Fat32) (d o : ℕ) :
    (fat.entriesFrom d o).length = (fat.bytesPerCluster - o + 31) / 32 := by
  simp [entriesFrom]

theorem drop_entriesFrom (fat : Fat32) (d o j : ℕ) :
    (fat.entriesFrom d o).drop j = fat.entriesFrom d (o + 32 * j) := by
  apply List.ext_getElem
  · rw [List.length_drop, length_entriesFrom, length_entriesFrom]
    omega
  · intro i hi hi'
    simp [entriesFrom, Nat.mul_add, Nat.add_assoc]

theorem slotsAhead_succ (fat : Fat32) (d m o : ℕ) :
    fat.slotsAhead d (m + 1) o = ((fat.entriesFrom d o).map fun p => (d, p)) ++ fat.slotsAhead (fat.link d) m 0 := rfl

/-- A slot of the first cluster, and those behind it there. -/
theorem split_cluster (hsplit : ((fat.entriesFrom d o).map fun p => (d, p)) = before ++ q :: after) :
    q.1 = d ∧ q :: after = ((fat.entriesFrom d (o + 32 * before.length)).map fun p => (d, p)) ∧
      before.length < (fat.entriesFrom d o).length := by
  have hlength := congrArg List.length hsplit
  have hdrop := congrArg (List.drop before.length) hsplit
  rw [← List.map_drop, drop_entriesFrom, List.drop_left] at hdrop
  rw [List.length_map, List.length_append, List.length_cons] at hlength
  refine ⟨?_, hdrop.symm, by omega⟩
  have hmem : q ∈ (fat.entriesFrom d (o + 32 * before.length)).map fun p => (d, p) := hdrop ▸ List.mem_cons_self
  obtain ⟨p, -, rfl⟩ := List.mem_map.mp hmem
  rfl

/-- The slots behind some of those ahead are ahead of another place. -/
theorem ChainFrom.split (h : ChainFrom fat d m) (ho : 32 ∣ o) (hlt : o < fat.bytesPerCluster)
    (hsplit : fat.slotsAhead d m o = before ++ q :: after) :
    ∃ m' ≤ m, ChainFrom fat q.1 m' ∧
      q :: after = fat.slotsAhead q.1 m' ((o + 32 * before.length) % fat.bytesPerCluster) := by
  have hsize : 32 ∣ fat.bytesPerCluster := Dvd.dvd.mul_left (by decide) _
  induction m generalizing d o before with
  | zero =>
    have hcluster : ((fat.entriesFrom d o).map fun p => (d, p)) = before ++ q :: after := by
      rw [← hsplit]
      exact (List.append_nil _).symm
    obtain ⟨rfl, hahead, hlength⟩ := split_cluster hcluster
    rw [length_entriesFrom] at hlength
    refine ⟨0, le_rfl, h, ?_⟩
    rw [Nat.mod_eq_of_lt (by omega), hahead]
    exact (List.append_nil _).symm
  | succ m ih =>
    have hrest (before' : List Slot) (hb : before = ((fat.entriesFrom d o).map fun p => (d, p)) ++ before')
        (hsplit' : fat.slotsAhead (fat.link d) m 0 = before' ++ q :: after) :
        ∃ m' ≤ m + 1, ChainFrom fat q.1 m' ∧
          q :: after = fat.slotsAhead q.1 m' ((o + 32 * before.length) % fat.bytesPerCluster) := by
      obtain ⟨m', hm', hchain, hahead⟩ := ih h.next (dvd_zero 32) (by omega) hsplit'
      refine ⟨m', by omega, hchain, ?_⟩
      have hplace : o + 32 * before.length = 0 + 32 * before'.length + fat.bytesPerCluster := by
        rw [hb, List.length_append, List.length_map, length_entriesFrom]
        omega
      rw [hplace, Nat.add_mod_right]
      exact hahead
    rw [slotsAhead_succ] at hsplit
    rcases List.append_eq_append_iff.mp hsplit with ⟨before', hb, hsplit'⟩ | ⟨c, hcluster, hc⟩
    · exact hrest before' hb hsplit'
    · cases c with
      | nil =>
        rw [List.append_nil] at hcluster
        exact hrest [] (by rw [hcluster, List.append_nil]) hc.symm
      | cons r c =>
        obtain ⟨rfl, rfl⟩ := List.cons.inj hc
        obtain ⟨rfl, hahead, hlength⟩ := split_cluster hcluster
        rw [length_entriesFrom] at hlength
        refine ⟨m + 1, le_rfl, h, ?_⟩
        rw [Nat.mod_eq_of_lt (by omega), slotsAhead_succ, ← hahead]
        rfl

/-! ### A call -/

/-- A directory of `n + 1` clusters. Clusters have 28 bits and a size that is a power of two,
the sectors of the table have numbers, and the cache is true. -/
structure Directory (fat : Fat32) (c n : ℕ) : Prop extends DirChain fat c n where
  numbered : c < 2 ^ 28
  cache : CacheSound fat
  table : fat.offsetFats + 2 ^ 21 < fat32CacheBad
  size : fat.bytesPerCluster ∣ 2 ^ 32

/-- A call on an open directory, over at most `fuel` clusters; a walk over more is a fault here. -/
def listCall (fuel hardlimit : ℕ) (s : Fat32 × Place) : Exec ((Fat32 × Place) × Reply) := do
  match ← fat32GetDents64 fuel s.1 s.2 hardlimit with
  | none => .error .fault
  | some (fat, place, reply) => .ok ((fat, place), reply)

theorem scan_ptr {l : List (ℕ × Entry)} (h : scan (listVisit hardlimit d) l s = .ok (.next t)) :
    t.ptr ≡ s.ptr + 32 * l.length [MOD 2 ^ 32] := by
  induction l generalizing s with
  | nil =>
    cases h
    exact Nat.ModEq.refl _
  | cons p l ih =>
    obtain ⟨u, hvisit, hrest⟩ := scan_cons_eq_next h
    have hptr : u.ptr ≡ s.ptr + 32 [MOD 2 ^ 32] := by
      rw [(listVisit_next hvisit).1]
      exact Nat.mod_modEq _ _
    rw [List.length_cons, Nat.mul_add, Nat.mul_one, Nat.add_comm (32 * l.length), ← Nat.add_assoc]
    exact (ih hrest).trans (hptr.add_right _)

/-- Behind a cluster the pointer is at the start of one. -/
theorem scan_cluster (hsize : fat.bytesPerCluster ∣ 2 ^ 32) (hs : s.Aligned)
    (h : scan (listVisit hardlimit d) (fat.entriesFrom d (s.ptr % fat.bytesPerCluster)) s = .ok (.next t)) :
    t.Aligned ∧ t.ptr % fat.bytesPerCluster = 0 := by
  have haligned : t.Aligned := scan_invariant (fun _ _ _ => listVisit_aligned) hs h
  have hpos : 0 < fat.bytesPerCluster := Nat.pos_of_dvd_of_pos hsize (by decide)
  have hunit : 32 ∣ fat.bytesPerCluster := Dvd.dvd.mul_left (by decide) _
  have hplace : 32 ∣ s.ptr % fat.bytesPerCluster := (Nat.dvd_mod_iff hunit).mpr hs
  have hlt := Nat.mod_lt s.ptr hpos
  have hptr := (scan_ptr h).of_dvd hsize
  rw [length_entriesFrom] at hptr
  have hend : s.ptr + 32 * ((fat.bytesPerCluster - s.ptr % fat.bytesPerCluster + 31) / 32) =
      fat.bytesPerCluster * (s.ptr / fat.bytesPerCluster) + fat.bytesPerCluster := by
    have := Nat.div_add_mod s.ptr fat.bytesPerCluster
    omega
  rw [hend] at hptr
  refine ⟨haligned, Eq.trans hptr ?_⟩
  rw [Nat.add_mod_right, Nat.mul_mod_right]

theorem run_walked {σ ρ : Type} {start : σ → ℕ} {visit : ℕ → ℕ × Entry → σ → Exec (Round σ ρ)} {w : Walk σ}
    {r : Walk (Round σ ρ)} {k : ℕ} (hcache : CacheSound w.fat)
    (h : run (clusterRound start visit) k w = .ok (some r)) :
    Walked w.fat r.fat := by
  refine ⟨?_, run_sameVolume h⟩
  obtain ⟨u, hreaches, hdone⟩ := run_some h
  have hu : CacheSound u.fat := by
    refine hreaches.invariant (fun u => CacheSound u.fat) (fun v v' hv hround => ?_) hcache
    rw [(clusterRound_next hround).2.1]
    exact (fatTraverse_walked hv v.directory).1
  rcases clusterRound_done hdone with ⟨x, rfl, -⟩ | ⟨x, rfl, -⟩
  · exact hu
  · exact (fatTraverse_walked hu u.directory).1

theorem endOf_fat {σ ρ : Type} (fat : Fat32) (a : Round σ (ℕ × ρ)) : (endOf fat a).fat = fat := by
  cases a <;> rfl

/-- A call is a scan of the slots ahead. -/
theorem Directory.listCall_eq (h : Directory fat c n) (hwalked : Walked fat fat') (hm : m ≤ n)
    (hchain : ChainFrom fat d m) (hptr : 32 ∣ ptr) (hardlimit : ℕ) :
    ∃ fat'', listCall (n + 1) hardlimit (fat', ⟨ptr, d⟩) =
        scan (visitSlot (listVisit hardlimit)) (fat.slotsAhead d m (ptr % fat.bytesPerCluster)) ⟨.cleared, ptr, 0, []⟩ >>=
          (fun a => .ok ((fat'', (replyOf (endOf fat'' a)).1), (replyOf (endOf fat'' a)).2)) ∧
      ∀ a, scan (visitSlot (listVisit hardlimit)) (fat.slotsAhead d m (ptr % fat.bytesPerCluster))
        ⟨.cleared, ptr, 0, []⟩ = .ok a → Walked fat fat'' := by
  have hsame := hwalked.2
  have hpos : 0 < fat.bytesPerCluster := Nat.pos_of_dvd_of_pos h.size (by decide)
  have hrest (k : ℕ) : (fat'.fatChainRest d k).2 = List.iterate fat.link (fat.link d) k := by
    have htable : fat'.offsetFats + 2 ^ 21 < fat32CacheBad := by
      rw [hsame.offsetFats]
      exact h.table
    rw [fatChainRest_eq_iterate hwalked.1 htable hchain.small, hsame.link]
  have hwalk : ∃ fat'', run (listRound fat.bytesPerCluster hardlimit) (m + 1) ⟨fat', d, ⟨.cleared, ptr, 0, []⟩⟩ =
      scan (visitSlot (listVisit hardlimit)) (((fat'.entriesFrom d (ptr % fat.bytesPerCluster)).map fun p => (d, p)) ++
        fat'.slotsOf (fat'.fatChainRest d m).2) ⟨.cleared, ptr, 0, []⟩ >>= fun a => .ok (some (endOf fat'' a)) := by
    refine run_eq_scan_from (listVisit hardlimit) Listing.Aligned fat' d m (fun d' s t hs hscan => ?_) ?_ ?_ hptr
    · rw [hsame.entriesFrom] at hscan
      exact scan_cluster h.size hs hscan
    · rw [hrest]
      exact hchain.ended
    · rw [hrest]
      exact fun d' hd' => hchain.clusters d' (List.mem_cons_of_mem d hd')
  obtain ⟨fat'', hwalk⟩ := hwalk
  rw [hrest, hsame.entriesFrom, hsame.slotsOf, ← slotsAhead] at hwalk
  refine ⟨fat'', ?_, ?_⟩
  · have hsettled :
        run (listRound fat.bytesPerCluster hardlimit) (m + 1) ⟨fat', d, ⟨.cleared, ptr, 0, []⟩⟩ ≠ .ok none := by
      rw [hwalk]
      intro hnone
      obtain ⟨a, -, ha⟩ := Exec.bind_ok_iff.mp hnone
      cases ha
    have hd : d ≠ 0 := hchain.clusters d List.mem_cons_self
    rw [listCall, fat32GetDents64, if_neg hd, hsame.bytesPerCluster, if_neg hpos.ne',
      run_stable hsettled (by omega), hwalk]
    cases scan (visitSlot (listVisit hardlimit)) (fat.slotsAhead d m (ptr % fat.bytesPerCluster))
        ⟨.cleared, ptr, 0, []⟩ with
    | error x => rfl
    | ok a => cases a <;> rfl
  · intro a ha
    rw [ha, Exec.ok_bind] at hwalk
    have hrun := run_walked hwalked.1 hwalk
    rw [endOf_fat] at hrun
    exact ⟨hrun.1, hsame.trans hrun.2⟩

/-- A call that stops at a slot. -/
theorem Directory.listCall_stopped (h : Directory fat c n) (hwalked : Walked fat fat') {slots : List Slot}
    (hat : At fat n place slots) {p : List Item} (hsplit : slots = before ++ q :: after)
    (hscan : scan (visitSlot (listVisit hardlimit)) slots ⟨.cleared, place.ptr, 0, []⟩ = .ok (.done (q.1, t)))
    (hmoved : Moved ⟨.cleared, place.ptr, 0, []⟩ t before.length p) :
    ∃ fat'', listCall (n + 1) hardlimit (fat', place) = .ok ((fat'', ⟨t.ptr, q.1⟩),
        ⟨if listing.total p = 0 then .einval else .count (listing.total p), p.map Item.dirent⟩) ∧
      Walked fat fat'' ∧ At fat n ⟨t.ptr, q.1⟩ (q :: after) := by
  cases hat with
  | finish ptr => simp at hsplit
  | @inside ptr d m hm hchain hptr =>
    have hpos : 0 < fat.bytesPerCluster := Nat.pos_of_dvd_of_pos h.size (by decide)
    have hunit : 32 ∣ fat.bytesPerCluster := Dvd.dvd.mul_left (by decide) _
    obtain ⟨fat'', hcall, hafter⟩ := h.listCall_eq hwalked hm hchain hptr hardlimit
    rw [hscan, Exec.ok_bind] at hcall
    have hmod : t.ptr % fat.bytesPerCluster =
        (ptr % fat.bytesPerCluster + 32 * before.length) % fat.bytesPerCluster := by
      rw [Nat.mod_add_mod]
      exact hmoved.ptr.of_dvd h.size
    have haligned : 32 ∣ t.ptr := by
      have hmod32 : t.ptr ≡ ptr + 32 * before.length [MOD 32] := hmoved.ptr.of_dvd (by decide)
      exact (hmod32.dvd_iff (dvd_refl 32)).mpr (hptr.add (Dvd.intro _ rfl))
    obtain ⟨m', hm', hchain', hahead⟩ := hchain.split ((Nat.dvd_mod_iff hunit).mpr hptr) (Nat.mod_lt _ hpos) hsplit
    refine ⟨fat'', ?_, hafter _ hscan, ?_⟩
    · rw [hcall, endOf, replyOf, hmoved.allocatedlimit, hmoved.entries, Nat.zero_add, List.nil_append]
    · rw [hahead, ← hmod]
      exact .inside (hm'.trans hm) hchain' haligned

/-- A call that lists all slots ahead. -/
theorem Directory.listCall_all (h : Directory fat c n) (hwalked : Walked fat fat') {slots : List Slot}
    (hat : At fat n place slots) {p : List Item}
    (hscan : scan (visitSlot (listVisit hardlimit)) slots ⟨.cleared, place.ptr, 0, []⟩ = .ok (.next t))
    (hmoved : Moved ⟨.cleared, place.ptr, 0, []⟩ t slots.length p) :
    ∃ fat'' ptr', listCall (n + 1) hardlimit (fat', place) =
        .ok ((fat'', ⟨ptr', 0⟩), ⟨.count (listing.total p), p.map Item.dirent⟩) ∧ Walked fat fat'' := by
  cases hat with
  | finish ptr =>
    cases hscan
    have htotal : listing.total p = 0 := by simpa using hmoved.allocatedlimit.symm
    have hentries : p.map Item.dirent = [] := by simpa using hmoved.entries.symm
    rw [htotal, hentries]
    exact ⟨fat', ptr, rfl, hwalked⟩
  | @inside ptr d m hm hchain hptr =>
    obtain ⟨fat'', hcall, hafter⟩ := h.listCall_eq hwalked hm hchain hptr hardlimit
    rw [hscan, Exec.ok_bind] at hcall
    refine ⟨fat'', t.ptr, ?_, hafter _ hscan⟩
    rw [hcall, endOf, replyOf, hmoved.allocatedlimit, hmoved.entries, Nat.zero_add, List.nil_append]

end Places

end DualFuse.Filesystems.Fat32
