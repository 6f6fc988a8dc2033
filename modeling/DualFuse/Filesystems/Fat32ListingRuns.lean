import DualFuse.Filesystems.Fat32Listing

/-! Whole listings of a FAT32 directory. Where a call stops depends on the buffers, and what
was gathered of a long name up to there is lost. The listings by all buffers are the same
exactly if no entry but the first one has a long name of its own. What is listed is right if,
besides, the entries in use are those with the two attributes, and a search for a listed name
takes the entry and none before it. -/

namespace DualFuse.Filesystems.Fat32

open Library Loop Utility RecordLoop

/-- An entry that names the volume. -/
def Entry.isLabel (e : Entry) : Bool := e.attrib &&& 0x08 != 0

/-- The entries of a directory in use: not deleted, before the end mark, and files or directories. -/
def entriesInUse (slots : List Slot) : List Slot :=
  (slots.takeWhile fun q => q.2.2.order != 0).filter fun q => q.2.2.live && !q.2.2.isLabel

/-- The files and directories, under the names that are gathered from the start. -/
def listedItems (fat : Fat32) (c n : ℕ) : List Item := itemsFrom .cleared (fat.dirSlots c n)

/-- Calls with these buffers on the directory give this listing, and then zero. -/
def ListsAs (fat : Fat32) (c n : ℕ) (limits : ℕ → ℕ) (full : List Dirent) : Prop :=
  Cursor.Lists (listCall (n + 1)) (fun r => r.entries.map asRead) (·.answer = .count 0) limits (fat, ⟨0, c⟩) full

/-- The entry is listed, under a name that a search finds it by. -/
structure ListsEntry (fat : Fat32) (c : ℕ) (q : Slot) (d : Dirent) : Prop where
  inode : d.inode = inodeGen q.1 (q.2.1 / 32)
  type : d.type = direntType q.2.2
  found : Finds fat c d.filename q

/-- All buffers with room for each entry, however it comes, give one listing, in which each
entry in use is once. -/
def ListsWell (fat : Fat32) (c n : ℕ) : Prop :=
  ∃ full, (∀ limits : ℕ → ℕ, (∀ k, listing.Fits (limits k) (fat.listedItems c n)) → ListsAs fat c n limits full) ∧
    List.Forall₂ (ListsEntry fat c) (entriesInUse (fat.dirSlots c n)) full

/-- A search for a name takes an entry, and none before it. -/
def TakesFirst (name : List (BitVec 8)) (before : List Slot) (q : Slot) : Prop :=
  Takes name (gathered (entriesOf before)) q.2.2 ∧
    NoneOf (fun before r => Takes name (gathered (entriesOf before)) r.2.2) before

/-- What the listings depend on: the numbers of all fragments, the attributes of the entries in
use, the long names behind the first file, and the comparisons with the names. -/
structure Listable (fat : Fat32) (c n : ℕ) : Prop where
  numbers : ∀ q ∈ fat.dirSlots c n, q.2.2.Numbered
  nodes : ((fat.dirSlots c n).filter fun q => q.2.2.isNode) = entriesInUse (fat.dirSlots c n)
  names : ∀ x ∈ (fat.listedItems c n).tail, CString.content x.again.filename = CString.content x.filename
  searched : ∀ before q after, fat.dirSlots c n = before ++ q :: after → q.2.2.isNode →
    TakesFirst (CString.content (listedName (gathered (entriesOf before)) q.2.2)) before q

variable {fat : Fat32} {c n : ℕ} {limits : ℕ → ℕ}

/-! ### The calls and the buffers -/

theorem Directory.rest_eq (h : Directory fat c n) (k : ℕ) :
    (fat.fatChainRest c k).2 = List.iterate fat.link (fat.link c) k :=
  fatChainRest_eq_iterate h.cache h.table h.numbered k

theorem Directory.chainFrom (h : Directory fat c n) : ChainFrom fat c n where
  small := h.numbered
  clusters d hd := by
    rw [← h.rest_eq] at hd
    have := h.clusters d hd
    omega
  ended := h.rest_eq (n + 1) ▸ h.ended

theorem Directory.slotsAhead_eq (h : Directory fat c n) : fat.slotsAhead c n 0 = fat.dirSlots c n := by
  rw [slotsAhead, dirSlots_eq, h.rest_eq]

theorem Directory.start (h : Directory fat c n) : At fat n ⟨0, c⟩ (fat.dirSlots c n) := by
  have hat : At fat n ⟨0, c⟩ (fat.slotsAhead c n (0 % fat.bytesPerCluster)) := .inside le_rfl h.chainFrom (dvd_zero 32)
  rwa [Nat.zero_mod, h.slotsAhead_eq] at hat

/-- An open directory with these items ahead, which fit in the buffers. -/
structure Ahead (fat : Fat32) (n : ℕ) (limits : ℕ → ℕ) (s : Fat32 × Place) (l : List Item) : Prop where
  walked : Walked fat s.1
  ahead : ∃ slots, At fat n s.2 slots ∧ (∀ q ∈ slots, q.2.2.Numbered) ∧ itemsFrom .cleared slots = l
  fits : ∀ k, listing.Fits (limits k) l

theorem size_pos (x : Item) : 0 < listing.size x := Nat.succ_pos _

theorem total_eq_zero_iff (p : List Item) : listing.total p = 0 ↔ p = [] := by
  cases p with
  | nil => exact iff_of_true rfl rfl
  | cons x p =>
    have := size_pos x
    rw [Batching.total_cons]
    exact iff_of_false (by omega) (List.cons_ne_nil x p)

theorem count_eq_zero_iff (p : List Item) : Answer.count (listing.total p) = .count 0 ↔ p = [] := by
  rw [Answer.count.injEq, total_eq_zero_iff]

theorem map_shown (p : List Item) : (p.map Item.dirent).map asRead = p.map listing.shown := List.map_map

/-- A call fills its buffer with the items ahead. -/
theorem Directory.same (h : Directory fat c n) (k : ℕ) :
    Cursor.Same (listCall (n + 1)) (fun r => r.entries.map asRead) (·.answer = .count 0) listing.call
      (List.map listing.shown) (· = []) (Ahead fat n limits) (limits k) := by
  rintro ⟨fat', place⟩ l ⟨hwalked, ⟨slots, hat, hnumbers, rfl⟩, hfits⟩
  have hfilled : Filled (limits k) slots ⟨.cleared, place.ptr, 0, []⟩ := filled LongName.bounded_cleared hnumbers
  have happend := listing.fill_append (limits k) 0 (itemsFrom .cleared slots)
  cases hfilled with
  | all t hfill hscan hbounded hmoved =>
    obtain ⟨fat'', ptr', hcall, hwalked'⟩ := h.listCall_all hwalked hat hscan hmoved
    refine ⟨_, _, _, _, hcall, rfl, ⟨hwalked', ⟨[], .finish ptr', by simp, ?_⟩, fun m => ?_⟩, map_shown _, ?_⟩
    · rw [hfill]
      rfl
    · rw [hfill]
      exact fun x hx => by cases hx
    · exact count_eq_zero_iff _
  | stopped before x after t hsplit hnode hfill hscan hmoved =>
    obtain ⟨fat'', hcall, hwalked', hat'⟩ := h.listCall_stopped hwalked hat hsplit hscan hmoved
    have hfill' : (listing.fill (limits k) 0 (itemsFrom .cleared slots)).2 = x :: itemsFrom .cleared after := hfill
    have hsome : (listing.fill (limits k) 0 (itemsFrom .cleared slots)).1 ≠ [] := by
      apply (hfits k).fill_ne_nil
      rw [← happend, hfill']
      simp
    have htotal : listing.total (listing.fill (limits k) 0 (itemsFrom .cleared slots)).1 ≠ 0 :=
      fun hzero => hsome ((total_eq_zero_iff _).mp hzero)
    rw [if_neg htotal] at hcall
    have hsuffix : ∀ q ∈ x.slot :: after, q.2.2.Numbered :=
      fun q hq => hnumbers q (hsplit ▸ List.mem_append_right before hq)
    refine ⟨_, _, _, _, hcall, rfl, ⟨hwalked', ⟨_, hat', hsuffix, ?_⟩, fun m => ?_⟩, map_shown _, count_eq_zero_iff _⟩
    · rw [hfill', itemsFrom_cons_of_node hnode]
      rfl
    · have hfits' := hfits m
      rw [← happend] at hfits'
      exact hfits'.resume

/-- The listings are those of the items by buffers. -/
theorem Directory.listsAs_iff (h : Directory fat c n) (hnumbers : ∀ q ∈ fat.dirSlots c n, q.2.2.Numbered)
    (hfits : ∀ k, listing.Fits (limits k) (fat.listedItems c n)) (full : List Dirent) :
    ListsAs fat c n limits full ↔ listing.Lists limits (fat.listedItems c n) full :=
  Cursor.lists_same_iff h.same ⟨⟨h.cache, .refl fat⟩, ⟨_, h.start, hnumbers, rfl⟩, hfits⟩ full

/-! ### What the items are -/

theorem exists_split {long : LongName} {l : List Slot} {x : Item} (h : x ∈ itemsFrom long l) :
    ∃ before after, l = before ++ x.slot :: after ∧ x.slot.2.2.isNode ∧
      x.filename = listedName (before.foldl (fun long q => long.after q.2.2) long) x.slot.2.2 := by
  induction l generalizing long with
  | nil => cases h
  | cons q l ih =>
    rw [itemsFrom] at h
    split_ifs at h with hnode
    · rcases List.mem_cons.mp h with rfl | h
      · exact ⟨[], l, rfl, hnode, rfl⟩
      · obtain ⟨before, after, rfl, hx, hname⟩ := ih h
        refine ⟨q :: before, after, rfl, hx, ?_⟩
        rw [hname, List.foldl_cons, LongName.after, if_pos hnode]
    · obtain ⟨before, after, rfl, hx, hname⟩ := ih h
      exact ⟨q :: before, after, rfl, hx, hname⟩

theorem listedItems_split {x : Item} (h : x ∈ fat.listedItems c n) :
    ∃ before after, fat.dirSlots c n = before ++ x.slot :: after ∧ x.slot.2.2.isNode ∧
      x.filename = listedName (gathered (entriesOf before)) x.slot.2.2 := by
  obtain ⟨before, after, hsplit, hnode, hname⟩ := exists_split h
  rw [gathered_slots] at hname
  exact ⟨before, after, hsplit, hnode, hname⟩

theorem mem_listedItems {before after : List Slot} {q : Slot} (hsplit : fat.dirSlots c n = before ++ q :: after)
    (hnode : q.2.2.isNode) : ⟨q, listedName (gathered (entriesOf before)) q.2.2⟩ ∈ fat.listedItems c n := by
  rw [listedItems, hsplit, itemsFrom_append, itemsFrom_cons_of_node hnode, gathered_slots]
  exact List.mem_append_right _ List.mem_cons_self

/-- A search has an entry as its result exactly if it takes that one and none before it. -/
theorem Directory.finds_iff (h : Directory fat c n) (hnumbers : ∀ q ∈ fat.dirSlots c n, q.2.2.Numbered)
    {before after : List Slot} {q : Slot} (hsplit : fat.dirSlots c n = before ++ q :: after)
    (name : List (BitVec 8)) : Finds fat c name q ↔ TakesFirst name before q := by
  rw [h.toDirChain.finds_iff, (folds_traverse name).scan_done_iff LongName.bounded_cleared visitSlot_self
    h.toDirChain.nodup_slots hnumbers hsplit]
  simp only [gathered_slots, TakesFirst]

theorem DirChain.isNode_of_finds (h : DirChain fat c n) {name : List (BitVec 8)} {q : Slot}
    (hfinds : Finds fat c name q) : q.2.2.isNode := by
  obtain ⟨before, r, after, t, -, -, hvisit⟩ := scan_done ((h.finds_iff name q).mp hfinds)
  obtain rfl := visitSlot_self r t q hvisit
  obtain ⟨a, hvisit, htag⟩ := Exec.bind_ok_iff.mp hvisit
  obtain ⟨long, -, hnode⟩ := Exec.bind_ok_iff.mp hvisit
  unfold traverseNode at hnode
  split_ifs at hnode with hq
  · exact hq
  · cases hnode
    cases htag

theorem gathered_bounded (before : List Slot) : (gathered (entriesOf before)).Bounded := by
  rw [← gathered_slots]
  exact (folds_traverse []).kept_foldl LongName.bounded_cleared before

theorem content_content (l : List (BitVec 8)) : CString.content (CString.content l) = CString.content l :=
  List.takeWhile_idem

theorem length_content_le (l : List (BitVec 8)) : (CString.content l).length ≤ l.length :=
  (List.takeWhile_prefix _).length_le

theorem length_filename_le {x : Item} (h : x ∈ fat.listedItems c n) : x.filename.length ≤ 256 := by
  obtain ⟨before, after, -, -, hname⟩ := listedItems_split h
  have hlong := (gathered_bounded before).length
  have hcontent := length_content_le (gathered (entriesOf before)).lfnName
  have hshort := length_sfnToNormal x.slot.2.2
  unfold lfnMaxTotalChars at hlong
  rw [hname, listedName]
  split_ifs <;> omega

/-- A name that reads as the short name takes no more bytes than that one. -/
theorem size_le_again {x : Item} (h : x ∈ fat.listedItems c n)
    (hsame : CString.content x.again.filename = CString.content x.filename) :
    listing.size x ≤ listing.size x.again := by
  obtain ⟨before, after, -, -, hname⟩ := listedItems_split h
  have hle : x.filename.length ≤ x.again.filename.length := by
    unfold listedName at hname
    split_ifs at hname
    · have hcontent : CString.content x.filename = x.filename := by rw [hname, content_content]
      rw [← hcontent, ← hsame]
      exact length_content_le _
    · rw [hname]
      exact le_rfl
  exact Nat.succ_le_succ (Nat.add_le_add_left hle 23)

theorem shown_again_iff (x : Item) :
    listing.shown (listing.again x) = listing.shown x ↔
      CString.content x.again.filename = CString.content x.filename := by
  simp [listing, asRead, Item.dirent, Item.again]

/-- If all buffers give one listing, no entry but the first one has a long name of its own. -/
theorem names_of_agreed {full : List Dirent} (h : listing.Agreed (fat.listedItems c n) full) :
    ∀ x ∈ (fat.listedItems c n).tail, CString.content x.again.filename = CString.content x.filename := by
  have hsize (x : Item) : listing.size x = 24 + x.filename.length := Nat.add_right_comm 23 _ 1
  have hagain (x : Item) : listing.size x.again ≤ 37 := by
    have hshort : x.again.filename.length ≤ 13 := length_sfnToNormal x.slot.2.2
    rw [hsize]
    omega
  intro x hx
  rw [← shown_again_iff]
  refine h.same size_pos (fun y hy => ?_) (fun y _ z _ w _ => ?_) (fun y hy hsame => ?_) x hx
  · have hy := length_filename_le hy
    have h37 : listing.size (listing.again y) ≤ 37 := hagain y
    have hbound : listing.bound = 2 ^ 31 := rfl
    have hspare : listing.spare = 2 := rfl
    rw [hsize y, hbound, hspare]
    omega
  · have h37 : listing.size (listing.again y) ≤ 37 := hagain y
    rw [hsize z, hsize w]
    omega
  · exact size_le_again hy ((shown_again_iff y).mp hsame)

/-! ### Fragments outside the buffer -/

/-- A visit of a fragment outside the buffer fails. -/
theorem scan_unnumbered {hardlimit : ℕ} {l : List Slot} {q : Slot} {s t : Listing} (after : List Slot)
    (ht : t.long.Bounded)
    (hq : ¬q.2.2.Numbered) (hscan : scan (visitSlot (listVisit hardlimit)) l s = .ok (.next t)) :
    ∃ x, scan (visitSlot (listVisit hardlimit)) (l ++ q :: after) s = .error x := by
  obtain ⟨x, hx⟩ := ht.noted_error hq
  refine ⟨x, ?_⟩
  rw [scan_append_next hscan]
  apply scan_cons_error
  rw [visitSlot, listVisit, hx, Exec.error_bind, Exec.error_bind]

/-- A place with a fragment outside the buffer ahead. -/
def Blocked (fat : Fat32) (n : ℕ) (q : Slot) (after : List Slot) (s : Fat32 × Place) : Prop :=
  Walked fat s.1 ∧ ∃ before, (∀ r ∈ before, r.2.2.Numbered) ∧ At fat n s.2 (before ++ q :: after)

/-- A call that comes back from such a place has stopped before the fragment. -/
theorem Directory.blocked_call (h : Directory fat c n) {q : Slot} {after : List Slot} (hq : ¬q.2.2.Numbered)
    {s s' : Fat32 × Place} {reply : Reply} {hardlimit : ℕ} (hs : Blocked fat n q after s)
    (hcall : listCall (n + 1) hardlimit s = .ok (s', reply)) :
    Blocked fat n q after s' ∧ reply.answer ≠ .count 0 := by
  obtain ⟨fat', place⟩ := s
  obtain ⟨hwalked, before, hbefore, hat⟩ := hs
  have hfilled : Filled hardlimit before ⟨.cleared, place.ptr, 0, []⟩ := filled LongName.bounded_cleared hbefore
  cases hfilled with
  | all t hfill hscan hbounded hmoved =>
    obtain ⟨x, hx⟩ := scan_unnumbered after hbounded hq hscan
    generalize hslots : before ++ q :: after = slots at hat hx
    cases hat with
    | finish ptr => simp at hslots
    | @inside ptr d m hm hchain hptr =>
      obtain ⟨fat'', heq, -⟩ := h.listCall_eq hwalked hm hchain hptr hardlimit
      rw [hx, Exec.error_bind] at heq
      rw [heq] at hcall
      cases hcall
  | stopped front x rest t hsplit hnode hfill hscan hmoved =>
    have hscan' := scan_append_done hscan (q :: after)
    have hsplit' : before ++ q :: after = front ++ x.slot :: (rest ++ q :: after) := by
      rw [hsplit, List.append_assoc, List.cons_append]
    obtain ⟨fat'', heq, hwalked', hat'⟩ := h.listCall_stopped hwalked hat hsplit' hscan' hmoved
    rw [heq] at hcall
    cases hcall
    refine ⟨⟨hwalked', x.slot :: rest, fun r hr => ?_, hat'⟩, ?_⟩
    · exact hbefore r (hsplit ▸ List.mem_append_right front hr)
    · split_ifs with hzero
      · exact fun hc => by cases hc
      · exact fun hc => hzero (Answer.count.inj hc)

/-- Listings that end pass no fragment outside the buffer. -/
theorem Directory.numbers_of_listsAs (h : Directory fat c n) {full : List Dirent}
    (hlists : ListsAs fat c n limits full) :
    ∀ q ∈ fat.dirSlots c n, q.2.2.Numbered := by
  by_contra hbad
  have hfirst : ¬NoneOf (fun _ (q : Slot) => ¬q.2.2.Numbered) (fat.dirSlots c n) := by
    intro hnone
    refine hbad fun q hq => ?_
    obtain ⟨before, after, hsplit⟩ := List.append_of_mem hq
    exact not_not.mp (hnone before q after hsplit)
  obtain ⟨before, q, after, hsplit, hnone, hq⟩ := exists_first hfirst
  have hbefore : ∀ r ∈ before, r.2.2.Numbered := by
    intro r hr
    obtain ⟨front, rest, hbefore⟩ := List.append_of_mem hr
    exact not_not.mp (hnone front r rest hbefore)
  have hstart : Blocked fat n q after (fat, ⟨0, c⟩) := ⟨⟨h.cache, .refl fat⟩, before, hbefore, hsplit ▸ h.start⟩
  obtain ⟨k, s, hk, ⟨u, r, hcall, hend⟩, -⟩ := hlists
  have hs : Blocked fat n q after s :=
    Cursor.listed_invariant (fun m t u r ht hcall => (h.blocked_call hq ht hcall).1) hstart hk
  exact (h.blocked_call hq hs hcall).2 hend

/-! ### Whole listings -/

/-- A buffer with room for every entry. -/
theorem exists_fits (fat : Fat32) (c n : ℕ) : listing.Fits 1000 (fat.listedItems c n) := by
  intro x hx
  have hlength := length_filename_le hx
  have hshort := length_sfnToNormal x.slot.2.2
  have hsize : listing.size x = 23 + x.filename.length + 1 := rfl
  have hagain : listing.size (listing.again x) = 23 + (sfnToNormal x.slot.2.2).length + 1 := rfl
  have hspare : listing.spare = 2 := rfl
  omega

/-- The items are listed as the entries in use exactly if searches take them first. -/
theorem Directory.listsEntries_iff (h : Directory fat c n) (hnumbers : ∀ q ∈ fat.dirSlots c n, q.2.2.Numbered) :
    List.Forall₂ (ListsEntry fat c) ((fat.listedItems c n).map Item.slot) ((fat.listedItems c n).map listing.shown) ↔
      ∀ before q after, fat.dirSlots c n = before ++ q :: after → q.2.2.isNode →
        TakesFirst (CString.content (listedName (gathered (entriesOf before)) q.2.2)) before q := by
  rw [List.forall₂_map_left_iff, List.forall₂_map_right_iff, List.forall₂_same]
  constructor
  · intro hall before q after hsplit hnode
    exact (h.finds_iff hnumbers hsplit _).mp (hall _ (mem_listedItems hsplit hnode)).found
  · intro hall x hx
    obtain ⟨before, after, hsplit, hnode, hname⟩ := listedItems_split hx
    refine ⟨rfl, rfl, (h.finds_iff hnumbers hsplit _).mpr ?_⟩
    have htakes := hall before x.slot after hsplit hnode
    rwa [← hname] at htakes

theorem exists_of_forall₂ {α β : Type} {R : α → β → Prop} {l : List α} {l' : List β} (h : List.Forall₂ R l l') :
    ∀ a ∈ l, ∃ b, R a b := by
  induction h with
  | nil => exact fun a ha => by cases ha
  | @cons a b l l' hab _ ih =>
    intro x hx
    rcases List.mem_cons.mp hx with rfl | hx
    · exact ⟨b, hab⟩
    · exact ih x hx

/-- If the items are listed as the entries in use, those are the files and directories. -/
theorem Directory.nodes_of_listed (h : Directory fat c n)
    (hentries : List.Forall₂ (ListsEntry fat c) (entriesInUse (fat.dirSlots c n))
      ((fat.listedItems c n).map listing.shown)) :
    ((fat.dirSlots c n).filter fun q => q.2.2.isNode) = entriesInUse (fat.dirSlots c n) := by
  have hnode : ∀ q ∈ entriesInUse (fat.dirSlots c n), q.2.2.isNode := by
    intro q hq
    obtain ⟨d, hd⟩ := exists_of_forall₂ hentries q hq
    exact h.toDirChain.isNode_of_finds hd.found
  have hsublist : (entriesInUse (fat.dirSlots c n)).Sublist (fat.dirSlots c n) :=
    List.filter_sublist.trans (List.takeWhile_sublist _)
  have hkept := hsublist.filter fun q => q.2.2.isNode
  rw [List.filter_eq_self.mpr hnode] at hkept
  have hlength := hentries.length_eq
  rw [List.length_map, ← List.length_map (f := Item.slot), listedItems, itemsFrom_slots] at hlength
  exact (hkept.eq_of_length hlength).symm

/-- What all buffers agree on. -/
theorem ListsWell.agreed (h : Directory fat c n) (hlists : ListsWell fat c n) :
    (∀ q ∈ fat.dirSlots c n, q.2.2.Numbered) ∧ ∃ full, listing.Agreed (fat.listedItems c n) full ∧
      List.Forall₂ (ListsEntry fat c) (entriesInUse (fat.dirSlots c n)) full := by
  obtain ⟨full, hlists, hentries⟩ := hlists
  have hnumbers := h.numbers_of_listsAs (hlists (fun _ => 1000) fun _ => exists_fits fat c n)
  exact ⟨hnumbers, full, fun limits hfits => (h.listsAs_iff hnumbers hfits full).mp (hlists limits hfits), hentries⟩

/-- The listings are right exactly if, of the fragments, all have numbers from 1 to 19; the
entries in use are those with the two attributes; none of them but the first has a long name
of its own; and a search for the name of one takes it and none before it. -/
theorem listsWell_iff (h : Directory fat c n) : ListsWell fat c n ↔ Listable fat c n := by
  constructor
  · intro hlists
    obtain ⟨hnumbers, full, hagreed, hentries⟩ := hlists.agreed h
    have hnames := names_of_agreed hagreed
    have hsame : ∀ x ∈ (fat.listedItems c n).tail, listing.shown (listing.again x) = listing.shown x :=
      fun x hx => (shown_again_iff x).mpr (hnames x hx)
    have hfull : full = (fat.listedItems c n).map listing.shown :=
      (hagreed (fun _ => 1000) fun _ => exists_fits fat c n).unique
        (Batching.lists_of_same (fun _ => exists_fits fat c n) hsame)
    subst hfull
    have hnodes := h.nodes_of_listed hentries
    refine ⟨hnumbers, hnodes, hnames, ?_⟩
    rw [← hnodes, ← itemsFrom_slots .cleared] at hentries
    exact (h.listsEntries_iff hnumbers).mp hentries
  · intro hlistable
    refine ⟨(fat.listedItems c n).map listing.shown, fun limits hfits => ?_, ?_⟩
    · rw [h.listsAs_iff hlistable.numbers hfits]
      exact Batching.lists_of_same hfits fun x hx => (shown_again_iff x).mpr (hlistable.names x hx)
    · rw [← hlistable.nodes, ← itemsFrom_slots .cleared]
      exact (h.listsEntries_iff hlistable.numbers).mpr hlistable.searched

theorem cacheSound_replicate {disk : ℕ → BitVec 8} {offsetFats offsetClusters sectorsPerCluster : ℕ} :
    CacheSound ⟨disk, offsetFats, offsetClusters, sectorsPerCluster,
      List.replicate 32 (fat32CacheBad, List.replicate 512 0), 0⟩ := by
  intro e he hbad
  rw [List.eq_of_mem_replicate he] at hbad
  exact absurd rfl hbad

theorem foobar_directory : Directory foobar 2 0 where
  toDirChain := foobar_chain
  numbered := by decide
  cache := cacheSound_replicate
  table := by decide
  size := by decide

theorem listsWell_foobar : ListsWell foobar 2 0 ↔ Listable foobar 2 0 := listsWell_iff foobar_directory

/-! ### Two long names -/

/-- A root directory, cluster 2, with the files `aa` and `bb`, whose short names are `AA` and `BB`. -/
def longNamesDisk (i : ℕ) : BitVec 8 :=
  if i ∈ [1024, 1088] then 0x41 else if i ∈ [1025, 1027] then 97 else if i ∈ [1089, 1091] then 98
  else if i ∈ [1035, 1099] then 0x0F else if i = 1037 then 15 else if i = 1101 then 207
  else if i ∈ [1056, 1057] then 65 else if i ∈ [1120, 1121] then 66
  else if 1058 ≤ i ∧ i ≤ 1067 ∨ 1122 ≤ i ∧ i ≤ 1131 then 32 else 0

def longNames : Fat32 where
  disk := longNamesDisk
  offsetFats := 1
  offsetClusters := 2
  sectorsPerCluster := 1
  cache := List.replicate 32 (0xFFFFFFFF, List.replicate 512 0)
  cacheCurr := 0

theorem longNames_directory : Directory longNames 2 0 where
  ended := by decide +kernel
  clusters := by decide
  nodup := by decide
  numbered := by decide
  cache := cacheSound_replicate
  table := by decide
  size := by decide

theorem longNames_differ :
    ∃ x ∈ (longNames.listedItems 2 0).tail, CString.content x.again.filename ≠ CString.content x.filename := by
  decide +kernel

/-- A call that stops at the second file loses its long name. -/
theorem long_name_lost_between_calls : ¬ListsWell longNames 2 0 := by
  intro hlists
  obtain ⟨-, full, hagreed, -⟩ := hlists.agreed longNames_directory
  obtain ⟨x, hx, hdiffers⟩ := longNames_differ
  exact hdiffers (names_of_agreed hagreed x hx)

end DualFuse.Filesystems.Fat32
