import DualFuse.Filesystems.Fat32Inodes
import DualFuse.Filesystems.Fat32LongNames
import Mathlib.Data.List.DropRight

/-! Searching a name in a FAT32 directory. An entry in use has the long name that the fragments
right before it give, from the first one to the one marked as the last, or else its short name.
The search goes by the fragments since the last file and by two partial comparisons with the
eleven bytes of the short name. It has the right result exactly where these agree. -/

namespace DualFuse.Filesystems.Fat32

open Library Loop Utility RecordLoop

/-! ### What the entries are called -/

namespace Entry

/-- The thirteen characters of a fragment, in 16 bits each. -/
def units (e : Entry) : List ℕ :=
  [1, 3, 5, 7, 9, 14, 16, 18, 20, 22, 24, 28, 30].map e.half

/-- The checksum that ties fragments to a short name: rotations to the right, and sums. -/
def checksum (e : Entry) : ℕ :=
  (e.take 11).foldl (fun sum b => (sum / 2 + sum % 2 * 128 + b.toNat) % 256) 0

/-- An entry that is neither deleted nor the end mark nor part of a long name. -/
def live (e : Entry) : Bool := e.order != 0xE5 && e.order != 0 && e.attrib != 0x0F

/-- The short name, without the spaces at the ends of its two parts. -/
def shortName (e : Entry) : List (BitVec 8) :=
  let ext := e.ext.rdropWhile (· == spaceChar)
  e.name.rdropWhile (· == spaceChar) ++ if ext = [] then [] else dotChar :: ext

end Entry

/-- The characters of the fragments from number `k` on, which come in falling order before an
entry with this checksum. -/
def fragmentUnits (sum : ℕ) : (reversed : List Entry) → (k : ℕ) → Option (List ℕ)
  | [], _ => none
  | f :: reversed, k =>
    if f.isFragment ∧ f.byte 13 = sum ∧ k ≤ 20 ∧ f.order &&& 0xBF = k then
      if f.order &&& lfnOrderFinal ≠ 0 then some f.units else (fragmentUnits sum reversed (k + 1)).map (f.units ++ ·)
    else none

/-- The long name of an entry, up to a terminator. -/
def longName (before : List Entry) (e : Entry) : Option (List ℕ) :=
  (fragmentUnits e.checksum before.reverse 1).map (List.takeWhile (· ≠ 0))

/-- After these entries of its directory, an entry is in use and has the name. -/
def Named (search : List (BitVec 8)) (before : List Entry) (e : Entry) : Prop :=
  (∀ p ∈ before, p.order ≠ 0) ∧ e.live ∧
    match longName before e with
    | some name => name = search.map BitVec.toNat
    | none => e.shortName = search

/-! ### What the search goes by -/

/-- What is gathered after an entry: a file or a directory clears it. -/
def LongName.after (long : LongName) (e : Entry) : LongName :=
  if e.isNode then .cleared else (long.noted e).toOption.getD long

def gathered (before : List Entry) : LongName := before.foldl LongName.after .cleared

/-- The comparison with the gathered name if there is a last fragment, or else with the short name. -/
def compares (search : List (BitVec 8)) (long : LongName) (e : Entry) : Bool :=
  if 0 ≤ long.lfnLast then CString.content long.lfnName == search else shortMatches search e

/-- The search tells whether an entry has the name: its number is one of a fragment, with the
name it is a file or a directory by its attributes, and for those the comparison is right. -/
structure Told (search : List (BitVec 8)) (before : List Entry) (e : Entry) : Prop where
  number : e.isFragment → 0 ≤ e.index ∧ e.index ≤ 18
  node : Named search before e → e.isNode
  comparison : e.isNode → (compares search (gathered before) e ↔ Named search before e)

/-- The slot of the directory that a search returns from. -/
def Finds (fat : Fat32) (c : ℕ) (search : List (BitVec 8)) (q : Slot) : Prop :=
  ∃ n fat', traverseWalk n fat c search = .ok (some ⟨fat', q.1, .done q.2⟩)

def FindsNothing (fat : Fat32) (c : ℕ) (search : List (BitVec 8)) : Prop :=
  ∃ n fat' long, traverseWalk n fat c search = .ok (some ⟨fat', 0, .next long⟩)

/-- The entries of slots. -/
def entriesOf (slots : List Slot) : List Entry := slots.map fun q => q.2.2

/-- No slot of a list has the name. -/
def NotNamed (search : List (BitVec 8)) (slots : List Slot) : Prop :=
  NoneOf (fun before q => Named search (entriesOf before) q.2.2) slots

/-- A search in a directory of `n + 1` clusters returns the first entry in use with the name,
and nothing if there is none. -/
structure LooksUp (fat : Fat32) (c n : ℕ) (search : List (BitVec 8)) : Prop where
  first : ∀ before q after, fat.dirSlots c n = before ++ q :: after → NotNamed search before →
    Named search (entriesOf before) q.2.2 → Finds fat c search q
  nothing : NotNamed search (fat.dirSlots c n) → FindsNothing fat c search

/-! ### One entry -/

variable {long : LongName} {search : List (BitVec 8)} {fat : Fat32} {c n : ℕ}

theorem LongName.Bounded.text_eq (h : long.Bounded) : long.text = .ok (CString.content long.lfnName) := by
  obtain ⟨len, hlen⟩ := h.strlen
  have hzero : (0 : BitVec 8) ∈ long.lfnName := by
    by_contra hzero
    rw [CString.strlen, if_neg hzero] at hlen
    cases hlen
  rw [LongName.text, CString.strlen, if_pos hzero, Exec.ok_bind]
  have hprefix : CString.content long.lfnName <+: long.lfnName := List.takeWhile_prefix _
  rw [← List.prefix_iff_eq_take.mp hprefix]

theorem LongName.Bounded.found_eq (h : long.Bounded) (search : List (BitVec 8)) (e : Entry) :
    found search long e = .ok (compares search long e) := by
  unfold found compares
  split_ifs with hlast
  · rw [h.text_eq, Exec.ok_bind]
  · rfl

/-- A node is no fragment. -/
theorem Entry.isFragment_of_isNode {e : Entry} (h : e.isNode) : e.isFragment = false := by
  simp only [Entry.isNode, Bool.or_eq_true, beq_iff_eq] at h
  simp only [Entry.isFragment, Bool.and_eq_false_iff, beq_eq_false_iff_ne]
  omega

/-- What a fragment with a number from 1 to 19, or another entry, leaves behind. -/
theorem LongName.Bounded.noted_of_number (h : long.Bounded) {e : Entry}
    (hnumber : e.isFragment → 0 ≤ e.index ∧ e.index ≤ 18) :
    long.noted e = .ok ((long.noted e).toOption.getD long) := by
  rcases h.noted e with ⟨long', hnoted, -⟩ | ⟨-, hfragment, hindex⟩ | ⟨-, hfragment, hindex⟩
  · rw [hnoted]
    rfl
  · have := hnumber hfragment
    omega
  · have := hnumber hfragment
    omega

theorem LongName.Bounded.noted_error (h : long.Bounded) {e : Entry}
    (hnumber : ¬(e.isFragment → 0 ≤ e.index ∧ e.index ≤ 18)) : ∃ x, long.noted e = .error x := by
  rcases h.noted e with ⟨-, -, -, hindex⟩ | ⟨hnoted, -⟩ | ⟨hnoted, -⟩
  · exact absurd hindex hnumber
  · exact ⟨_, hnoted⟩
  · exact ⟨_, hnoted⟩

theorem LongName.Bounded.after (h : long.Bounded) (e : Entry) : (long.after e).Bounded := by
  unfold LongName.after
  split_ifs
  · exact LongName.bounded_cleared
  · rcases h.noted e with ⟨long', hnoted, hbounded, -⟩ | ⟨hnoted, -⟩ | ⟨hnoted, -⟩
    · rw [hnoted]
      exact hbounded
    · rw [hnoted]
      exact h
    · rw [hnoted]
      exact h

/-- The search takes an entry. -/
def Takes (search : List (BitVec 8)) (long : LongName) (e : Entry) : Prop := e.isNode ∧ compares search long e

theorem traverseVisit_taken (h : long.Bounded) {e : Entry} (htakes : Takes search long e) (i : ℕ) :
    traverseVisit search (i, e) long = .ok (.done (i, e)) := by
  have hnoted : long.noted e = .ok long := if_neg (by rw [Entry.isFragment_of_isNode htakes.1]; exact Bool.false_ne_true)
  rw [traverseVisit, hnoted, Exec.ok_bind, traverseNode, if_pos htakes.1, h.found_eq, Exec.ok_bind, if_pos htakes.2]

theorem traverseVisit_passed (h : long.Bounded) {e : Entry} (hnumber : e.isFragment → 0 ≤ e.index ∧ e.index ≤ 18)
    (htakes : ¬Takes search long e) (i : ℕ) : traverseVisit search (i, e) long = .ok (.next (long.after e)) := by
  rw [traverseVisit, h.noted_of_number hnumber, Exec.ok_bind, traverseNode, LongName.after]
  by_cases hnode : e.isNode
  · have hnoted : long.noted e = .ok long := if_neg (by rw [Entry.isFragment_of_isNode hnode]; exact Bool.false_ne_true)
    have hcompares : ¬compares search long e := fun hcompares => htakes ⟨hnode, hcompares⟩
    rw [if_pos hnode, if_pos hnode, hnoted]
    dsimp only [Except.toOption, Option.getD_some]
    rw [h.found_eq, Exec.ok_bind, if_neg hcompares]
  · rw [if_neg hnode, if_neg hnode]

theorem visitSlot_taken (h : long.Bounded) {q : Slot} (htakes : Takes search long q.2.2) :
    visitSlot (fun _ => traverseVisit search) q long = .ok (.done q) := by
  rw [visitSlot, traverseVisit_taken h htakes, Exec.ok_bind, tag]

/-- A search folds the entries of a directory. -/
theorem folds_traverse (search : List (BitVec 8)) :
    Folds (visitSlot fun _ => traverseVisit search) LongName.Bounded
      (fun q => q.2.2.isFragment → 0 ≤ q.2.2.index ∧ q.2.2.index ≤ 18) (fun long q => Takes search long q.2.2)
      (fun long q => long.after q.2.2) where
  taken long q h _ htakes := visitSlot_taken h htakes
  passed := by
    rintro long ⟨d, i, e⟩ h hnumber htakes
    rw [visitSlot, traverseVisit_passed h hnumber htakes, Exec.ok_bind, tag]
  failed := by
    rintro long ⟨d, i, e⟩ h hnumber a hvisit
    obtain ⟨x, hx⟩ := h.noted_error hnumber
    rw [visitSlot, traverseVisit, hx] at hvisit
    cases hvisit
  keeps long q h := h.after q.2.2

/-! ### A directory -/

theorem places_nodup (fat : Fat32) (d : ℕ) : ((fat.entriesFrom d 0).map fun p => (d, p)).Nodup := by
  unfold entriesFrom
  dsimp only
  rw [List.map_map]
  refine List.nodup_range.map fun k k' heq => ?_
  have hplace := congrArg (fun q : Slot => q.2.1) heq
  dsimp only [Function.comp_apply] at hplace
  omega

theorem DirChain.nodup_slots (h : DirChain fat c n) : (fat.dirSlots c n).Nodup := by
  unfold dirSlots slotsOf
  rw [List.nodup_flatMap]
  refine ⟨fun d _ => places_nodup fat d, h.nodup.imp fun {d d'} hne => ?_⟩
  intro q hq hq'
  obtain ⟨p, -, rfl⟩ := List.mem_map.mp hq
  obtain ⟨p', -, heq⟩ := List.mem_map.mp hq'
  exact hne (congrArg Prod.fst heq).symm

theorem visitSlot_self (q : Slot) (long : LongName) (r : Slot)
    (h : visitSlot (fun _ => traverseVisit search) q long = .ok (.done r)) : r = q := by
  obtain ⟨d, i, e⟩ := q
  obtain ⟨a, hvisit, htag⟩ := Exec.bind_ok_iff.mp h
  cases a with
  | next t => cases htag
  | done p =>
    cases htag
    obtain ⟨long', -, hnode⟩ := Exec.bind_ok_iff.mp hvisit
    unfold traverseNode at hnode
    split_ifs at hnode
    · obtain ⟨found, -, hfound⟩ := Exec.bind_ok_iff.mp hnode
      cases found <;> cases hfound
      rfl
    · cases hnode

/-- A search in a directory is a scan of its slots. -/
theorem DirChain.walk_eq (h : DirChain fat c n) (search : List (BitVec 8)) :
    ∃ fat', traverseWalk (n + 1) fat c search =
      scan (visitSlot fun _ => traverseVisit search) (fat.dirSlots c n) .cleared >>=
        fun a => .ok (some (endOf fat' a)) := by
  refine run_eq_scan (fun _ => traverseVisit search) fat c n h.ended (fun d hd heq => ?_) .cleared
  have := h.clusters d (List.mem_cons_of_mem c hd)
  omega

theorem DirChain.endsWith_iff (h : DirChain fat c n) (search : List (BitVec 8)) :
    ∃ fat', ∀ w, EndsWith (traverseRound search) ⟨fat, c, .cleared⟩ w ↔
      ∃ a, scan (visitSlot fun _ => traverseVisit search) (fat.dirSlots c n) .cleared = .ok a ∧ w = endOf fat' a := by
  obtain ⟨fat', hwalk⟩ := h.walk_eq search
  refine ⟨fat', fun w => ?_⟩
  have hsettled : traverseWalk (n + 1) fat c search ≠ .ok none := by
    rw [hwalk]
    intro hnone
    obtain ⟨a, -, ha⟩ := Exec.bind_ok_iff.mp hnone
    cases ha
  have hiff : EndsWith (traverseRound search) ⟨fat, c, .cleared⟩ w ↔
      traverseWalk (n + 1) fat c search = .ok (some w) := Loop.endsWith_iff hsettled
  rw [hiff, hwalk, Exec.bind_ok_iff]
  refine exists_congr fun a => and_congr_right fun _ => ?_
  exact ⟨fun heq => (Option.some.inj (Except.ok.inj heq)).symm, fun heq => by rw [heq]⟩

theorem DirChain.finds_iff (h : DirChain fat c n) (search : List (BitVec 8)) (q : Slot) :
    Finds fat c search q ↔
      scan (visitSlot fun _ => traverseVisit search) (fat.dirSlots c n) .cleared = .ok (.done q) := by
  obtain ⟨fat', hends⟩ := h.endsWith_iff search
  constructor
  · rintro ⟨m, fat'', hwalk⟩
    obtain ⟨a, hscan, heq⟩ := (hends _).mp ⟨m, hwalk⟩
    have hgathered := congrArg Walk.gathered heq
    cases a with
    | next t => cases hgathered
    | done r =>
      have hplace := congrArg Walk.directory heq
      have hr : r = q := Prod.ext hplace.symm (Round.done.inj hgathered).symm
      rw [hscan, hr]
  · intro hscan
    obtain ⟨m, hm⟩ := (hends _).mpr ⟨_, hscan, rfl⟩
    exact ⟨m, fat', hm⟩

theorem DirChain.findsNothing_iff (h : DirChain fat c n) (search : List (BitVec 8)) :
    FindsNothing fat c search ↔
      ∃ t, scan (visitSlot fun _ => traverseVisit search) (fat.dirSlots c n) .cleared = .ok (.next t) := by
  obtain ⟨fat', hends⟩ := h.endsWith_iff search
  constructor
  · rintro ⟨m, fat'', t, hwalk⟩
    obtain ⟨a, hscan, heq⟩ := (hends _).mp ⟨m, hwalk⟩
    have hgathered := congrArg Walk.gathered heq
    cases a with
    | next t => exact ⟨t, hscan⟩
    | done r => cases hgathered
  · rintro ⟨t, hscan⟩
    obtain ⟨m, hm⟩ := (hends _).mpr ⟨_, hscan, rfl⟩
    exact ⟨m, fat', t, hm⟩

theorem gathered_slots (slots : List Slot) :
    slots.foldl (fun long q => long.after q.2.2) LongName.cleared = gathered (entriesOf slots) := by
  rw [gathered, entriesOf, List.foldl_map]

theorem told_iff (search : List (BitVec 8)) (before : List Entry) (e : Entry) :
    Told search before e ↔
      (e.isFragment → 0 ≤ e.index ∧ e.index ≤ 18) ∧ (Takes search (gathered before) e ↔ Named search before e) := by
  constructor
  · intro h
    exact ⟨h.number, fun htakes => (h.comparison htakes.1).mp htakes.2,
      fun hnamed => ⟨h.node hnamed, (h.comparison (h.node hnamed)).mpr hnamed⟩⟩
  · rintro ⟨hnumber, htakes⟩
    exact ⟨hnumber, fun hnamed => (htakes.mpr hnamed).1,
      fun hnode => ⟨fun hcompares => htakes.mp ⟨hnode, hcompares⟩, fun hnamed => (htakes.mpr hnamed).2⟩⟩

/-- A volume with the file `FOOBAR.TXT` in its root directory, which is cluster 2. -/
def foobar : Fat32 where
  disk i := if 1024 ≤ i ∧ i < 1036 then [70, 79, 79, 66, 65, 82, 32, 32, 84, 88, 84, 32].getD (i - 1024) 0 else 0
  offsetFats := 1
  offsetClusters := 2
  sectorsPerCluster := 1
  cache := List.replicate 32 (0xFFFFFFFF, List.replicate 512 0)
  cacheCurr := 0

theorem foobar_chain : DirChain foobar 2 0 where
  ended := by decide +kernel
  clusters := by decide
  nodup := by decide

/-- Without fragments every entry has its short name. -/
theorem longName_eq_none {before : List Entry} (h : ∀ p ∈ before, p.isFragment = false) (e : Entry) :
    longName before e = none := by
  have hunits : fragmentUnits e.checksum before.reverse 1 = none := by
    cases hreverse : before.reverse with
    | nil => rfl
    | cons f reversed =>
      have hf : f.isFragment = false := h f (List.mem_reverse.mp (hreverse ▸ List.mem_cons_self))
      rw [fragmentUnits, if_neg]
      rintro ⟨hfragment, -⟩
      rw [hf] at hfragment
      cases hfragment
  rw [longName, hunits, Option.map_none]

theorem foobar_entries : ∀ e ∈ entriesOf (foobar.dirSlots 2 0),
    e.isFragment = false ∧ (e.live = true → e.shortName ≠ [70, 79, 79]) := by
  decide +kernel

theorem foobar_not_named : NotNamed [70, 79, 79] (foobar.dirSlots 2 0) := by
  intro before q after hsplit hnamed
  have hmem (p : Slot) (hp : p ∈ before ++ q :: after) : p.2.2 ∈ entriesOf (foobar.dirSlots 2 0) := by
    rw [hsplit]
    exact List.mem_map_of_mem hp
  obtain ⟨-, hlive, hname⟩ := hnamed
  have hnone : longName (entriesOf before) q.2.2 = none := by
    refine longName_eq_none (fun p hp => ?_) q.2.2
    obtain ⟨r, hr, rfl⟩ := List.mem_map.mp hp
    exact (foobar_entries _ (hmem r (List.mem_append_left _ hr))).1
  rw [hnone] at hname
  exact (foobar_entries _ (hmem q (List.mem_append_right _ List.mem_cons_self))).2 hlive hname

def foobarEntry : Entry := (foobar.getDiskBytes 2 1).take 32

theorem foobar_taken : Takes [70, 79, 79] .cleared foobarEntry := by
  have hnode : foobarEntry.isNode = true := by decide +kernel
  have hcompares : compares [70, 79, 79] .cleared foobarEntry = true := by decide +kernel
  exact ⟨hnode, hcompares⟩

theorem foobar_slots : ∃ rest, foobar.dirSlots 2 0 = (2, 0, foobarEntry) :: rest := by
  obtain ⟨rest, hrest⟩ : ∃ rest, foobar.entriesFrom 2 0 = (0, foobarEntry) :: rest := ⟨_, rfl⟩
  exact ⟨_, by rw [dirSlots_eq, hrest, List.map_cons, List.cons_append]⟩

end DualFuse.Filesystems.Fat32
