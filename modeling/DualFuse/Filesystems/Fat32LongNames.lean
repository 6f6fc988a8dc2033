import DualFuse.Filesystems.Fat32Directory

/-! The bounds of `lfnName` (`fat32_LFNmem_cpy` and the scans for the terminator). The number
of a fragment comes from the disk. Numbers from 1 to 19 are inside the buffer and leave its
end zero; number 20 and number 0 are outside, and the mark of a deleted entry reads as a
number that stops the system. -/

namespace DualFuse.Filesystems.Fat32

open Library Loop Utility RecordLoop

/-- The buffer has its length, and its last bytes are never written. -/
structure LongName.Bounded (long : LongName) : Prop where
  length : long.lfnName.length = lfnMaxTotalChars
  tail : long.lfnName.drop 247 = List.replicate 9 0

/-- A number that is inside the buffer, or that stops the system without being the mark of a
deleted entry. -/
def Entry.InRange (e : Entry) : Prop := (0 ≤ e.index ∧ e.index ≤ 18) ∨ (20 ≤ e.index ∧ e.order ≠ 0xE5)

/-- No access outside the buffer, and no stop because of a deleted entry. -/
def SafeAt {α : Type} (e : Entry) (m : Exec α) : Prop :=
  m ≠ .error .fault ∧ (e.isFragment = true → e.order = 0xE5 → m ≠ .error .halt)

variable {long long' : LongName} {e : Entry}

theorem LongName.bounded_cleared : LongName.cleared.Bounded where
  length := List.length_replicate
  tail := by rw [LongName.cleared, List.drop_replicate]; rfl

theorem Entry.length_characters (e : Entry) : e.characters.length = 13 := by
  rw [Entry.characters, List.length_map]
  rfl

namespace LongName.Bounded

/-- A fragment with a number from 1 to 19 is copied. -/
theorem lfnMemCpy (h : long.Bounded) (e : Entry) {index : ℤ} (hlow : 0 ≤ index) (hhigh : index ≤ 18) (last : ℤ) :
    ∃ lfnName, LongName.lfnMemCpy long.lfnName e index = .ok lfnName ∧ (LongName.mk lfnName last).Bounded := by
  obtain ⟨k, rfl⟩ : ∃ k : ℕ, index = k := ⟨index.toNat, (Int.toNat_of_nonneg hlow).symm⟩
  have hlength := h.length
  have hcharacters := e.length_characters
  unfold lfnMaxTotalChars at hlength
  have hfits : k * 13 + 13 ≤ long.lfnName.length ∧ 0 + 13 ≤ e.characters.length := by omega
  refine ⟨long.lfnName.take (k * 13) ++ (e.characters.drop 0).take 13 ++ long.lfnName.drop (k * 13 + 13), ?_, ?_, ?_⟩
  · rw [LongName.lfnMemCpy, if_neg (by omega), Int.toNat_natCast, CString.memcpy, if_pos hfits]
  · simp only [List.length_append, List.length_take, List.length_drop, lfnMaxTotalChars]
    omega
  · have hfront : (long.lfnName.take (k * 13) ++ (e.characters.drop 0).take 13).length = k * 13 + 13 := by
      simp only [List.length_append, List.length_take, List.length_drop]
      omega
    have hrest : 247 = k * 13 + 13 + (234 - k * 13) := by omega
    rw [hrest, ← hfront, List.drop_length_add_append, hfront, List.drop_drop, ← hrest]
    exact h.tail

theorem strlen (h : long.Bounded) : ∃ n, CString.strlen long.lfnName = .ok n := by
  have hzero : 0 ∈ long.lfnName := by
    apply List.mem_of_mem_drop
    rw [h.tail]
    exact List.mem_replicate.mpr ⟨by decide, rfl⟩
  exact ⟨_, if_pos hzero⟩

theorem text (h : long.Bounded) : ∃ text, long.text = .ok text := by
  obtain ⟨n, hn⟩ := h.strlen
  exact ⟨long.lfnName.take n, by rw [LongName.text, hn, Exec.ok_bind]⟩

/-- What a fragment does. -/
theorem noted (h : long.Bounded) (e : Entry) :
    (∃ long', long.noted e = .ok long' ∧ long'.Bounded ∧ (e.isFragment → 0 ≤ e.index ∧ e.index ≤ 18)) ∨
      (long.noted e = .error .fault ∧ e.isFragment ∧ (e.index = -1 ∨ e.index = 19)) ∨
        long.noted e = .error .halt ∧ e.isFragment ∧ 20 ≤ e.index := by
  have hlength := h.length
  have hcharacters := e.length_characters
  have hindex : -1 ≤ e.index := by
    unfold Entry.index
    omega
  unfold LongName.noted
  by_cases hfragment : e.isFragment = true
  · rw [if_pos hfragment]
    by_cases hmax : e.index ≥ lfnMax
    · rw [if_pos hmax]
      exact Or.inr (Or.inr ⟨rfl, hfragment, hmax⟩)
    · rw [if_neg hmax]
      unfold lfnMax at hmax
      unfold lfnMaxTotalChars at hlength
      by_cases hinside : 0 ≤ e.index ∧ e.index ≤ 18
      · obtain ⟨lfnName, hcopy, hbounded⟩ := h.lfnMemCpy e hinside.1 hinside.2
          (if e.order &&& lfnOrderFinal ≠ 0 then e.index else long.lfnLast)
        exact Or.inl ⟨_, by rw [hcopy, Exec.ok_bind], hbounded, fun _ => hinside⟩
      · refine Or.inr (Or.inl ⟨?_, hfragment, by omega⟩)
        have hfault : LongName.lfnMemCpy long.lfnName e e.index = .error .fault := by
          unfold LongName.lfnMemCpy
          split_ifs with hneg
          · rfl
          · rw [CString.memcpy, if_neg]
            omega
        rw [hfault]
        rfl
  · rw [if_neg hfragment]
    exact Or.inl ⟨long, rfl, h, fun hc => absurd hc hfragment⟩

end LongName.Bounded

theorem length_sfnToNormal (e : Entry) : (sfnToNormal e).length ≤ 13 := by
  have hbase : (e.name.takeWhile (· ≠ spaceChar)).length ≤ 8 :=
    (List.takeWhile_prefix _).length_le.trans (List.length_take_le 8 e)
  have hext : (e.ext.takeWhile (· ≠ spaceChar)).length ≤ 3 :=
    (List.takeWhile_prefix _).length_le.trans (List.length_take_le 3 _)
  unfold sfnToNormal
  dsimp only
  split_ifs
  · simp only [List.length_append, List.length_cons, List.length_nil]
    omega
  · simp only [List.length_append, List.length_cons, List.length_nil]
    omega

theorem LongName.Bounded.listedBytes (h : long.Bounded) (e : Entry) : ∃ bytes, listedBytes long e = .ok bytes := by
  unfold Fat32.listedBytes
  split_ifs with hlast
  · exact h.text
  · have hlength := h.length
    have hnormal := length_sfnToNormal e
    unfold lfnMaxTotalChars at hlength
    dsimp only
    rw [CString.memcpy, if_pos (by omega), Exec.ok_bind]
    exact ⟨_, rfl⟩

/-- An entry is safe exactly if a fragment has a number in range. -/
theorem LongName.Bounded.safe_iff (h : long.Bounded) (e : Entry) {α : Type} {rest : LongName → Exec α}
    (hrest : ∀ long', long'.Bounded → ∃ a, rest long' = .ok a) :
    SafeAt e (long.noted e >>= rest) ↔ (e.isFragment → e.InRange) := by
  unfold SafeAt Entry.InRange
  have hdeleted : e.order = 0xE5 → 20 ≤ e.index := by
    intro heq
    rw [Entry.index, heq]
    decide
  rcases h.noted e with ⟨long', hnoted, hbounded, hindex⟩ | ⟨hnoted, hfragment, hindex⟩ | ⟨hnoted, hfragment, hindex⟩
  · obtain ⟨a, ha⟩ := hrest long' hbounded
    rw [hnoted, Exec.ok_bind, ha]
    simp only [ne_eq, reduceCtorEq, not_false_eq_true, implies_true, and_self, true_iff]
    exact fun hfragment => Or.inl (hindex hfragment)
  · rw [hnoted]
    refine iff_of_false (fun hsafe => hsafe.1 rfl) fun hrange => ?_
    have := hrange hfragment
    omega
  · rw [hnoted]
    constructor
    · exact fun hsafe _ => Or.inr ⟨hindex, fun heq => hsafe.2 hfragment heq rfl⟩
    · intro hrange
      refine ⟨fun hfault => Stop.noConfusion (Except.error.inj hfault), fun _ heq => ?_⟩
      have := hrange hfragment
      omega

/-! ### The two walks -/

variable {search : List (BitVec 8)} {hardlimit d : ℕ} {p : ℕ × Entry}

theorem traverseNode_ok (h : long.Bounded) (search : List (BitVec 8)) (i : ℕ) (e : Entry) :
    ∃ a, traverseNode search i e long = .ok a ∧ ∀ long', a = .next long' → long'.Bounded := by
  unfold traverseNode
  split_ifs with hnode
  · have hfound : ∃ b, found search long e = .ok b := by
      unfold found
      split_ifs
      · obtain ⟨text, htext⟩ := h.text
        exact ⟨_, by rw [htext, Exec.ok_bind]⟩
      · exact ⟨_, rfl⟩
    obtain ⟨b, hb⟩ := hfound
    refine ⟨_, by rw [hb, Exec.ok_bind], fun long' heq => ?_⟩
    split_ifs at heq
    cases heq
    exact LongName.bounded_cleared
  · refine ⟨_, rfl, fun long' heq => ?_⟩
    cases heq
    exact h

theorem listNode_ok (s : Listing) (h : s.long.Bounded) (hardlimit directory i : ℕ) (e : Entry) :
    ∃ a, listNode hardlimit directory i e s = .ok a ∧ ∀ s', a = .next s' → s'.long.Bounded := by
  unfold listNode
  split_ifs with hnode
  · obtain ⟨bytes, hbytes⟩ := h.listedBytes e
    rw [hbytes, Exec.ok_bind]
    dsimp only
    split_ifs
    · exact ⟨_, rfl, fun s' heq => by cases heq⟩
    · refine ⟨_, rfl, fun s' heq => ?_⟩
      cases heq
      exact LongName.bounded_cleared
  · refine ⟨_, rfl, fun s' heq => ?_⟩
    cases heq
    exact h

/-- What an entry keeps whose fragment is taken first. -/
theorem noted_keeps (h : long.Bounded) (e : Entry) {α β : Type} {rest : LongName → Exec (Round α β)} {t : α}
    (inv : α → Prop) (hrest : ∀ long', long'.Bounded → ∃ a, rest long' = .ok a ∧ ∀ t, a = .next t → inv t)
    (hnext : (long.noted e >>= rest) = .ok (.next t)) : inv t := by
  rcases h.noted e with ⟨long', hnoted, hbounded, -⟩ | ⟨hnoted, -⟩ | ⟨hnoted, -⟩
  · obtain ⟨a, ha, hinv⟩ := hrest long' hbounded
    rw [hnoted, Exec.ok_bind, ha] at hnext
    exact hinv t (Except.ok.inj hnext)
  · rw [hnoted] at hnext
    cases hnext
  · rw [hnoted] at hnext
    cases hnext

/-- The walk is safe at every entry that it comes to. -/
def BoundsKept {σ ρ : Type} (start : σ → ℕ) (visit : ℕ → ℕ × Entry → σ → Exec (Round σ ρ)) (w : Walk σ) : Prop :=
  ∀ d p s, Met start visit w d p s → SafeAt p.2 (visit d p s)

theorem traverse_boundsKept_iff (fat : Fat32) (initDirectory : ℕ) (search : List (BitVec 8)) :
    BoundsKept (fun _ => 0) (fun _ => traverseVisit search) ⟨fat, initDirectory, .cleared⟩ ↔
      ∀ d p s, Met (fun _ => 0) (fun _ => traverseVisit search) ⟨fat, initDirectory, .cleared⟩ d p s →
        p.2.isFragment → p.2.InRange := by
  refine forall_congr' fun d => forall_congr' fun p => forall_congr' fun long => imp_congr_right fun hmet => ?_
  have hbounded : long.Bounded := by
    refine hmet.invariant LongName.Bounded (fun d p s t hs hnext => ?_) LongName.bounded_cleared
    exact noted_keeps hs p.2 LongName.Bounded (fun long' h' => traverseNode_ok h' search p.1 p.2) hnext
  refine hbounded.safe_iff p.2 fun long' h' => ?_
  obtain ⟨a, ha, -⟩ := traverseNode_ok h' search p.1 p.2
  exact ⟨a, ha⟩

theorem list_boundsKept_iff (fat : Fat32) (place : Place) (hardlimit : ℕ) :
    BoundsKept (fun s => s.ptr % fat.bytesPerCluster) (listVisit hardlimit)
        ⟨fat, place.directoryCurr, ⟨.cleared, place.ptr, 0, []⟩⟩ ↔
      ∀ d p s, Met (fun s => s.ptr % fat.bytesPerCluster) (listVisit hardlimit)
          ⟨fat, place.directoryCurr, ⟨.cleared, place.ptr, 0, []⟩⟩ d p s → p.2.isFragment → p.2.InRange := by
  refine forall_congr' fun d => forall_congr' fun p => forall_congr' fun s => imp_congr_right fun hmet => ?_
  have hbounded : s.long.Bounded := by
    refine hmet.invariant (fun s => s.long.Bounded) (fun d p s t hs hnext => ?_) LongName.bounded_cleared
    exact noted_keeps hs p.2 (fun s => s.long.Bounded)
      (fun long' h' => listNode_ok { s with long := long' } h' hardlimit d p.1 p.2) hnext
  refine hbounded.safe_iff p.2 fun long' h' => ?_
  obtain ⟨a, ha, -⟩ := listNode_ok { s with long := long' } h' hardlimit d p.1 p.2
  exact ⟨a, ha⟩

/-- A search that is safe at every entry makes no access outside the buffer. -/
theorem fat32Traverse_not_fault {fat : Fat32} {initDirectory : ℕ}
    (h : BoundsKept (fun _ => 0) (fun _ => traverseVisit search) ⟨fat, initDirectory, .cleared⟩) (n : ℕ) :
    fat32Traverse n fat initDirectory search ≠ .error .fault := by
  unfold fat32Traverse traverseWalk
  cases hrun : run (traverseRound search) n ⟨fat, initDirectory, .cleared⟩ with
  | error x =>
    obtain ⟨d, p, s, hmet, hvisit⟩ := met_of_run_error hrun
    rw [Exec.error_bind]
    rintro hfault
    cases hfault
    exact (h d p s hmet).1 hvisit
  | ok w =>
    cases w with
    | none => exact fun hfault => by cases hfault
    | some w => exact fun hfault => by cases hfault

/-- Both walks stay inside the buffer and pass deleted entries exactly if the fragments that
they come to have numbers in range. -/
theorem longNames_bounded_iff (fat : Fat32) :
    (∀ initDirectory search,
      BoundsKept (fun _ => 0) (fun _ => traverseVisit search) ⟨fat, initDirectory, .cleared⟩ ↔
        ∀ d p s, Met (fun _ => 0) (fun _ => traverseVisit search) ⟨fat, initDirectory, .cleared⟩ d p s →
          p.2.isFragment → p.2.InRange) ∧
    ∀ (place : Place) hardlimit,
      BoundsKept (fun s => s.ptr % fat.bytesPerCluster) (listVisit hardlimit)
          ⟨fat, place.directoryCurr, ⟨.cleared, place.ptr, 0, []⟩⟩ ↔
        ∀ d p s, Met (fun s => s.ptr % fat.bytesPerCluster) (listVisit hardlimit)
            ⟨fat, place.directoryCurr, ⟨.cleared, place.ptr, 0, []⟩⟩ d p s → p.2.isFragment → p.2.InRange :=
  ⟨traverse_boundsKept_iff fat, list_boundsKept_iff fat⟩

/-- A volume whose root directory begins with a deleted fragment. -/
def deletedFragment : Fat32 where
  disk i := if i = 1024 then 0xE5 else if i = 1035 then 0x0F else 0
  offsetFats := 1
  offsetClusters := 2
  sectorsPerCluster := 1
  cache := List.replicate 32 (0xFFFFFFFF, List.replicate 512 0)
  cacheCurr := 0

/-- Its first entry. -/
def deletedEntry : Entry := (deletedFragment.getDiskBytes 2 1).take 32

theorem traverseVisit_halts (hfragment : e.isFragment) (hindex : e.index ≥ lfnMax) (search : List (BitVec 8)) (i : ℕ)
    (long : LongName) : traverseVisit search (i, e) long = .error .halt := by
  unfold traverseVisit LongName.noted
  rw [if_pos hfragment, if_pos hindex, Exec.error_bind]

theorem deleted_fragment_halts :
    ¬BoundsKept (fun _ => 0) (fun _ => traverseVisit [65]) ⟨deletedFragment, 2, .cleared⟩ := by
  intro h
  have hmet : Met (fun _ => 0) (fun _ => traverseVisit [65]) ⟨deletedFragment, 2, .cleared⟩ 2
      (0, deletedEntry) .cleared := ⟨_, .refl _, rfl, [], _, rfl, rfl⟩
  have hfragment : deletedEntry.isFragment := by decide +kernel
  have hindex : deletedEntry.index ≥ lfnMax := by decide +kernel
  have horder : deletedEntry.order = 0xE5 := by decide +kernel
  obtain ⟨-, hsafe⟩ := h 2 (0, deletedEntry) .cleared hmet
  dsimp only at hsafe
  exact hsafe hfragment horder (traverseVisit_halts hfragment hindex [65] 0 .cleared)

end DualFuse.Filesystems.Fat32
