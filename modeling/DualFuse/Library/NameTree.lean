import Mathlib.Tactic

/-! Directories of names with link counts. The links of all directories are one multiset; a
node in use counts the links to it, each directory has a link to itself and one to its
parent, and every other link to a directory is from that parent. New names, removed names
and removed nodes keep this. -/

namespace DualFuse.Library

/-- The name of a node in a directory. -/
structure Link (ν κ : Type*) where
  dir : ν
  name : κ
  node : ν
  deriving DecidableEq

/-- The nodes in use, the directories of them, what each node counts, and the links. -/
@[ext] structure NameTree (ν κ : Type*) where
  used : Set ν
  dirs : Set ν
  hardLinks : ν → ℕ
  links : Multiset (Link ν κ)

namespace NameTree

variable {ν κ : Type*} [DecidableEq ν] {t : NameTree ν κ} {root n d p : ν} {dot dotdot name : κ}
  {ordinary : Set ν} {l : Link ν κ}

/-- The links to a node. -/
def count (t : NameTree ν κ) (n : ν) : ℕ := t.links.countP fun l => l.node = n

/-- No name stands twice in a directory, each link is to a node in use, and the ordinary
nodes count the links to them. -/
structure Valid (root : ν) (dot dotdot : κ) (ordinary : Set ν) (t : NameTree ν κ) : Prop where
  nodup : (t.links.map fun l => (l.dir, l.name)).Nodup
  homes : ∀ l ∈ t.links, l.dir ∈ t.dirs
  refers : ∀ l ∈ t.links, l.node ∈ t.used ∧ l.node ∈ ordinary
  subset : t.dirs ⊆ t.used
  counted : ∀ n ∈ t.used, n ∈ ordinary → t.hardLinks n = t.count n
  kept : ∀ n ∈ t.used, n ∈ ordinary → t.hardLinks n ≠ 0
  self : ∀ d ∈ t.dirs, ⟨d, dot, d⟩ ∈ t.links
  parent : ∀ l ∈ t.links, l.node ∈ t.dirs → l.name ≠ dot → l.name ≠ dotdot → ⟨l.node, dotdot, l.dir⟩ ∈ t.links
  rooted : root ∈ t.dirs ∧ ⟨root, dotdot, root⟩ ∈ t.links

/-- A directory has no such name. -/
def Absent (t : NameTree ν κ) (d : ν) (name : κ) : Prop := ∀ l ∈ t.links, l.dir = d → l.name ≠ name

namespace Valid

theorem count_eq_zero (h : Valid root dot dotdot ordinary t) (hn : n ∉ t.used) : t.count n = 0 := by
  rw [count, Multiset.countP_eq_zero]
  rintro l hl rfl
  exact hn (h.refers l hl).1

theorem nodup_cons (h : Valid root dot dotdot ordinary t) (habsent : t.Absent l.dir l.name) :
    ((l ::ₘ t.links).map fun l => (l.dir, l.name)).Nodup := by
  rw [Multiset.map_cons, Multiset.nodup_cons]
  refine ⟨fun hmem => ?_, h.nodup⟩
  obtain ⟨x, hx, heq⟩ := Multiset.mem_map.mp hmem
  rw [Prod.mk.injEq] at heq
  exact habsent x hx heq.1 heq.2

end Valid

/-! ### New names -/

/-- A new node that is no directory, with its first name. -/
def addFile (t : NameTree ν κ) (n p : ν) (name : κ) : NameTree ν κ where
  used := insert n t.used
  dirs := t.dirs
  hardLinks := Function.update t.hardLinks n 1
  links := ⟨p, name, n⟩ ::ₘ t.links

/-- A new directory. -/
def addDir (dot dotdot : κ) (t : NameTree ν κ) (n p : ν) (name : κ) : NameTree ν κ where
  used := insert n t.used
  dirs := insert n t.dirs
  hardLinks := Function.update (Function.update t.hardLinks n 2) p (t.hardLinks p + 1)
  links := ⟨p, name, n⟩ ::ₘ ⟨n, dotdot, p⟩ ::ₘ ⟨n, dot, n⟩ ::ₘ t.links

/-- One more name of a node. -/
def addLink (t : NameTree ν κ) (n p : ν) (name : κ) : NameTree ν κ :=
  { t with
    hardLinks := Function.update t.hardLinks n (t.hardLinks n + 1)
    links := ⟨p, name, n⟩ ::ₘ t.links }

theorem Valid.addFile (h : Valid root dot dotdot ordinary t) (hn : n ∉ t.used) (hord : n ∈ ordinary)
    (hp : p ∈ t.dirs) (habsent : t.Absent p name) : Valid root dot dotdot ordinary (t.addFile n p name) where
  nodup := h.nodup_cons habsent
  homes l hl := by
    rcases Multiset.mem_cons.mp hl with rfl | hl
    · exact hp
    · exact h.homes l hl
  refers l hl := by
    rcases Multiset.mem_cons.mp hl with rfl | hl
    · exact ⟨Set.mem_insert _ _, hord⟩
    · exact ⟨Set.mem_insert_of_mem _ (h.refers l hl).1, (h.refers l hl).2⟩
  subset := h.subset.trans (Set.subset_insert _ _)
  counted m hm hmord := by
    change Function.update t.hardLinks n 1 m = Multiset.countP _ (_ ::ₘ t.links)
    rw [Multiset.countP_cons]
    rcases eq_or_ne m n with rfl | hne
    · have hzero := h.count_eq_zero hn
      rw [count] at hzero
      rw [Function.update_self, hzero, if_pos rfl]
    · have hcount := h.counted m (hm.resolve_left hne) hmord
      rw [Function.update_of_ne hne, if_neg hne.symm, hcount]
      rfl
  kept m hm hmord := by
    change Function.update t.hardLinks n 1 m ≠ 0
    rcases eq_or_ne m n with rfl | hne
    · rw [Function.update_self]
      exact one_ne_zero
    · rw [Function.update_of_ne hne]
      exact h.kept m (hm.resolve_left hne) hmord
  self d hd := Multiset.mem_cons_of_mem (h.self d hd)
  parent l hl hdir hdot hdotdot := by
    rcases Multiset.mem_cons.mp hl with rfl | hl
    · exact absurd (h.subset hdir) hn
    · exact Multiset.mem_cons_of_mem (h.parent l hl hdir hdot hdotdot)
  rooted := ⟨h.rooted.1, Multiset.mem_cons_of_mem h.rooted.2⟩

theorem Valid.addLink (h : Valid root dot dotdot ordinary t) (hn : n ∈ t.used) (hord : n ∈ ordinary)
    (hfile : n ∉ t.dirs) (hp : p ∈ t.dirs) (habsent : t.Absent p name) :
    Valid root dot dotdot ordinary (t.addLink n p name) where
  nodup := h.nodup_cons habsent
  homes l hl := by
    rcases Multiset.mem_cons.mp hl with rfl | hl
    · exact hp
    · exact h.homes l hl
  refers l hl := by
    rcases Multiset.mem_cons.mp hl with rfl | hl
    · exact ⟨hn, hord⟩
    · exact h.refers l hl
  subset := h.subset
  counted m hm hmord := by
    change Function.update t.hardLinks n _ m = Multiset.countP _ (_ ::ₘ t.links)
    have hcount := h.counted m hm hmord
    rw [Multiset.countP_cons]
    rcases eq_or_ne m n with rfl | hne
    · rw [Function.update_self, if_pos rfl, hcount]
      rfl
    · rw [Function.update_of_ne hne, if_neg hne.symm, hcount]
      rfl
  kept m hm hmord := by
    change Function.update t.hardLinks n _ m ≠ 0
    rcases eq_or_ne m n with rfl | hne
    · rw [Function.update_self]
      exact Nat.succ_ne_zero _
    · rw [Function.update_of_ne hne]
      exact h.kept m hm hmord
  self d hd := Multiset.mem_cons_of_mem (h.self d hd)
  parent l hl hdir hdot hdotdot := by
    rcases Multiset.mem_cons.mp hl with rfl | hl
    · exact absurd hdir hfile
    · exact Multiset.mem_cons_of_mem (h.parent l hl hdir hdot hdotdot)
  rooted := ⟨h.rooted.1, Multiset.mem_cons_of_mem h.rooted.2⟩

theorem Valid.addDir (h : Valid root dot dotdot ordinary t) (hdots : dot ≠ dotdot) (hn : n ∉ t.used)
    (hord : n ∈ ordinary) (hp : p ∈ t.dirs) (habsent : t.Absent p name) :
    Valid root dot dotdot ordinary (t.addDir dot dotdot n p name) := by
  have hnp : n ≠ p := by
    rintro rfl
    exact hn (h.subset hp)
  have hpord : p ∈ ordinary := (h.refers _ (h.self p hp)).2
  -- nothing is in the new directory yet
  have hempty : ∀ l ∈ t.links, l.dir ≠ n := fun l hl heq => hn (h.subset (heq ▸ h.homes l hl))
  refine ⟨?_, ?_, ?_, ?_, ?_, ?_, ?_, ?_, ?_⟩
  · have hself : ((n, dot) : ν × κ) ∉ t.links.map fun l => (l.dir, l.name) := by
      intro hmem
      obtain ⟨x, hx, heq⟩ := Multiset.mem_map.mp hmem
      exact hempty x hx (congrArg Prod.fst heq)
    have hup : ((n, dotdot) : ν × κ) ∉ t.links.map fun l => (l.dir, l.name) := by
      intro hmem
      obtain ⟨x, hx, heq⟩ := Multiset.mem_map.mp hmem
      exact hempty x hx (congrArg Prod.fst heq)
    have hname : ((p, name) : ν × κ) ∉ t.links.map fun l => (l.dir, l.name) := by
      intro hmem
      obtain ⟨x, hx, heq⟩ := Multiset.mem_map.mp hmem
      exact habsent x hx (congrArg Prod.fst heq) (congrArg Prod.snd heq)
    simp only [NameTree.addDir, Multiset.map_cons, Multiset.nodup_cons, Multiset.mem_cons, Prod.mk.injEq, not_or]
    exact ⟨⟨fun hc => hnp hc.1.symm, fun hc => hnp hc.1.symm, hname⟩, ⟨fun hc => hdots hc.2.symm, hup⟩, hself, h.nodup⟩
  · intro l hl
    simp only [NameTree.addDir, Multiset.mem_cons] at hl
    rcases hl with rfl | rfl | rfl | hl
    · exact Set.mem_insert_of_mem _ hp
    · exact Set.mem_insert _ _
    · exact Set.mem_insert _ _
    · exact Set.mem_insert_of_mem _ (h.homes l hl)
  · intro l hl
    simp only [NameTree.addDir, Multiset.mem_cons] at hl
    rcases hl with rfl | rfl | rfl | hl
    · exact ⟨Set.mem_insert _ _, hord⟩
    · exact ⟨Set.mem_insert_of_mem _ (h.subset hp), hpord⟩
    · exact ⟨Set.mem_insert _ _, hord⟩
    · exact ⟨Set.mem_insert_of_mem _ (h.refers l hl).1, (h.refers l hl).2⟩
  · exact Set.insert_subset_insert h.subset
  · intro m hm hmord
    simp only [NameTree.addDir, count, Multiset.countP_cons]
    rcases eq_or_ne m p with rfl | hmp
    · have hcount := h.counted m (h.subset hp) hmord
      rw [Function.update_self, hcount, if_neg hnp, if_pos rfl]
      rfl
    · rw [Function.update_of_ne hmp, if_neg hmp.symm]
      rcases eq_or_ne m n with rfl | hmn
      · have hzero := h.count_eq_zero hn
        rw [count] at hzero
        rw [Function.update_self, if_pos rfl, hzero]
      · have hcount := h.counted m (hm.resolve_left hmn) hmord
        rw [Function.update_of_ne hmn, if_neg hmn.symm, hcount]
        rfl
  · intro m hm hmord
    simp only [NameTree.addDir]
    rcases eq_or_ne m p with rfl | hmp
    · rw [Function.update_self]
      exact Nat.succ_ne_zero _
    · rw [Function.update_of_ne hmp]
      rcases eq_or_ne m n with rfl | hmn
      · rw [Function.update_self]
        exact two_ne_zero
      · rw [Function.update_of_ne hmn]
        exact h.kept m (hm.resolve_left hmn) hmord
  · intro d hd
    simp only [NameTree.addDir, Multiset.mem_cons]
    rcases hd with rfl | hd
    · exact Or.inr (Or.inr (Or.inl rfl))
    · exact Or.inr (Or.inr (Or.inr (h.self d hd)))
  · intro l hl hdir hdot hdotdot
    simp only [NameTree.addDir, Multiset.mem_cons] at hl ⊢
    rcases hl with rfl | rfl | rfl | hl
    · exact Or.inr (Or.inl rfl)
    · exact absurd rfl hdotdot
    · exact absurd rfl hdot
    · have hold : l.node ∈ t.dirs := hdir.resolve_left fun heq => hn (heq ▸ (h.refers l hl).1)
      exact Or.inr (Or.inr (Or.inr (h.parent l hl hold hdot hdotdot)))
  · refine ⟨Set.mem_insert_of_mem _ h.rooted.1, ?_⟩
    simp only [NameTree.addDir, Multiset.mem_cons]
    exact Or.inr (Or.inr (Or.inr h.rooted.2))

/-! ### Removed names -/

variable [DecidableEq κ]

/-- A name of a node that has others. -/
def unlink (t : NameTree ν κ) (l : Link ν κ) : NameTree ν κ :=
  { t with
    hardLinks := Function.update t.hardLinks l.node (t.hardLinks l.node - 1)
    links := t.links.erase l }

/-- The last name of a node that is no directory. -/
def freeFile (t : NameTree ν κ) (l : Link ν κ) : NameTree ν κ where
  used := t.used \ {l.node}
  dirs := t.dirs
  hardLinks := Function.update t.hardLinks l.node 0
  links := t.links.erase l

/-- The last name of a directory. -/
def freeDir (t : NameTree ν κ) (l : Link ν κ) : NameTree ν κ where
  used := t.used \ {l.node}
  dirs := t.dirs \ {l.node}
  hardLinks := Function.update (Function.update t.hardLinks l.node 0) l.dir (t.hardLinks l.dir - 1)
  links := (t.links.erase l).filter fun x => x.dir ≠ l.node

theorem count_erase (hl : l ∈ t.links) (n : ν) :
    (t.links.erase l).countP (fun x => x.node = n) + (if l.node = n then 1 else 0) = t.count n := by
  obtain ⟨rest, hrest⟩ := Multiset.exists_cons_of_mem hl
  rw [count, hrest, Multiset.erase_cons_head, Multiset.countP_cons]

theorem mem_erase_of_name_ne {x : Link ν κ} (hx : x ∈ t.links) (hne : x.name ≠ l.name) : x ∈ t.links.erase l :=
  (Multiset.mem_erase_of_ne fun heq => hne (congrArg Link.name heq)).mpr hx

theorem Valid.nodup_erase (h : Valid root dot dotdot ordinary t) (l : Link ν κ) :
    ((t.links.erase l).map fun l => (l.dir, l.name)).Nodup :=
  Multiset.nodup_of_le (Multiset.map_le_map (Multiset.erase_le l t.links)) h.nodup

theorem Valid.unlink (h : Valid root dot dotdot ordinary t) (hl : l ∈ t.links) (hdot : l.name ≠ dot)
    (hdotdot : l.name ≠ dotdot) (hmore : t.hardLinks l.node ≠ 1) :
    Valid root dot dotdot ordinary (t.unlink l) where
  nodup := h.nodup_erase l
  homes x hx := h.homes x (Multiset.mem_of_mem_erase hx)
  refers x hx := h.refers x (Multiset.mem_of_mem_erase hx)
  subset := h.subset
  counted m hm hmord := by
    change Function.update t.hardLinks l.node _ m = Multiset.countP _ (t.links.erase l)
    have hcount := h.counted m hm hmord
    have herase := count_erase hl m
    rcases eq_or_ne m l.node with rfl | hne
    · rw [if_pos rfl] at herase
      rw [Function.update_self, hcount, ← herase]
      rfl
    · rw [if_neg hne.symm] at herase
      rw [Function.update_of_ne hne, hcount, ← herase]
      rfl
  kept m hm hmord := by
    change Function.update t.hardLinks l.node _ m ≠ 0
    have hkept := h.kept m hm hmord
    rcases eq_or_ne m l.node with rfl | hne
    · rw [Function.update_self]
      omega
    · rwa [Function.update_of_ne hne]
  self d hd := mem_erase_of_name_ne (h.self d hd) hdot.symm
  parent x hx hdir hxdot hxdotdot :=
    mem_erase_of_name_ne (h.parent x (Multiset.mem_of_mem_erase hx) hdir hxdot hxdotdot) hdotdot.symm
  rooted := ⟨h.rooted.1, mem_erase_of_name_ne h.rooted.2 hdotdot.symm⟩

theorem Valid.freeFile (h : Valid root dot dotdot ordinary t) (hl : l ∈ t.links) (hdot : l.name ≠ dot)
    (hdotdot : l.name ≠ dotdot) (hfile : l.node ∉ t.dirs) (hlast : t.hardLinks l.node = 1) :
    Valid root dot dotdot ordinary (t.freeFile l) := by
  -- no other link is to the node
  have hothers : ∀ x ∈ t.links.erase l, x.node ≠ l.node := by
    have herase := count_erase hl l.node
    rw [if_pos rfl, ← h.counted _ (h.refers l hl).1 (h.refers l hl).2, hlast] at herase
    have hzero : (t.links.erase l).countP (fun x => x.node = l.node) = 0 := by omega
    exact fun x hx heq => Multiset.countP_eq_zero.mp hzero x hx heq
  refine ⟨h.nodup_erase l, fun x hx => h.homes x (Multiset.mem_of_mem_erase hx), ?_, ?_, ?_, ?_, ?_, ?_, ?_⟩
  · intro x hx
    have hold := h.refers x (Multiset.mem_of_mem_erase hx)
    exact ⟨⟨hold.1, hothers x hx⟩, hold.2⟩
  · exact fun d hd => ⟨h.subset hd, fun heq => hfile (Set.mem_singleton_iff.mp heq ▸ hd)⟩
  · rintro m ⟨hm, hne⟩ hmord
    have hcount := h.counted m hm hmord
    have herase := count_erase hl m
    rw [Set.mem_singleton_iff] at hne
    rw [if_neg (Ne.symm hne)] at herase
    change Function.update t.hardLinks l.node 0 m = Multiset.countP _ (t.links.erase l)
    rw [Function.update_of_ne hne, hcount, ← herase]
    rfl
  · rintro m ⟨hm, hne⟩ hmord
    change Function.update t.hardLinks l.node 0 m ≠ 0
    rw [Function.update_of_ne hne]
    exact h.kept m hm hmord
  · exact fun d hd => mem_erase_of_name_ne (h.self d hd) hdot.symm
  · exact fun x hx hdir hxdot hxdotdot =>
      mem_erase_of_name_ne (h.parent x (Multiset.mem_of_mem_erase hx) hdir hxdot hxdotdot) hdotdot.symm
  · exact ⟨h.rooted.1, mem_erase_of_name_ne h.rooted.2 hdotdot.symm⟩

/-- A directory with nothing but its own two links whose only other link is removed: its
parent is another directory, and these three links go. -/
theorem Valid.freeDir_links (h : Valid root dot dotdot ordinary t) (hdots : dot ≠ dotdot) (hl : l ∈ t.links)
    (hdot : l.name ≠ dot) (hdotdot : l.name ≠ dotdot) (hdir : l.node ∈ t.dirs) (hlast : t.hardLinks l.node = 2)
    (hempty : ∀ x ∈ t.links, x.dir = l.node → x.name = dot ∨ x.name = dotdot) :
    l.dir ≠ l.node ∧ root ≠ l.node ∧
      t.links = l ::ₘ ⟨l.node, dot, l.node⟩ ::ₘ ⟨l.node, dotdot, l.dir⟩ ::ₘ (t.freeDir l).links ∧
      ∀ x ∈ (t.freeDir l).links, x.node ≠ l.node := by
  obtain ⟨rest₁, hrest₁⟩ := Multiset.exists_cons_of_mem hl
  have hself : ⟨l.node, dot, l.node⟩ ∈ rest₁ := by
    have := h.self _ hdir
    rw [hrest₁, Multiset.mem_cons] at this
    exact this.resolve_left fun heq => hdot (congrArg Link.name heq).symm
  obtain ⟨rest₂, rfl⟩ := Multiset.exists_cons_of_mem hself
  -- the two links to the directory are its name and its own
  have hzero : rest₂.countP (fun x => x.node = l.node) = 0 := by
    have hcount := h.counted _ (h.refers l hl).1 (h.refers l hl).2
    rw [count, hrest₁, Multiset.countP_cons, Multiset.countP_cons, if_pos rfl, hlast] at hcount
    omega
  have hothers : ∀ x ∈ rest₂, x.node ≠ l.node := fun x hx heq => Multiset.countP_eq_zero.mp hzero x hx heq
  have hmem : ∀ x ∈ t.links, x.name = dotdot → x ∈ rest₂ := by
    intro x hx hname
    rw [hrest₁, Multiset.mem_cons, Multiset.mem_cons] at hx
    rcases hx with rfl | rfl | hx
    · exact absurd hname hdotdot
    · exact absurd hname hdots
    · exact hx
  have hup := hmem _ (h.parent l hl hdir hdot hdotdot) rfl
  have hparent : l.dir ≠ l.node := hothers _ hup
  have hroot : root ≠ l.node := hothers _ (hmem _ h.rooted.2 rfl)
  obtain ⟨rest, rfl⟩ := Multiset.exists_cons_of_mem hup
  have hnodup := h.nodup
  rw [hrest₁] at hnodup hempty
  simp only [Multiset.map_cons, Multiset.nodup_cons, Multiset.mem_cons, not_or] at hnodup
  have hkept : ∀ x ∈ rest, x.dir ≠ l.node := by
    intro x hx heq
    have hkey : (x.dir, x.name) ∈ rest.map fun l => (l.dir, l.name) := Multiset.mem_map_of_mem _ hx
    rcases hempty x (by simp [hx]) heq with hname | hname
    · rw [heq, hname] at hkey
      exact hnodup.2.1.2 hkey
    · rw [heq, hname] at hkey
      exact hnodup.2.2.1 hkey
  have hlinks : (t.freeDir l).links = rest := by
    rw [freeDir, hrest₁, Multiset.erase_cons_head, Multiset.filter_cons_of_neg _ (by simp),
      Multiset.filter_cons_of_neg _ (by simp), Multiset.filter_eq_self.mpr hkept]
  rw [hlinks]
  exact ⟨hparent, hroot, hrest₁, fun x hx => hothers x (Multiset.mem_cons_of_mem hx)⟩

theorem Valid.freeDir (h : Valid root dot dotdot ordinary t) (hdots : dot ≠ dotdot) (hl : l ∈ t.links)
    (hdot : l.name ≠ dot) (hdotdot : l.name ≠ dotdot) (hdir : l.node ∈ t.dirs) (hlast : t.hardLinks l.node = 2)
    (hempty : ∀ x ∈ t.links, x.dir = l.node → x.name = dot ∨ x.name = dotdot) :
    Valid root dot dotdot ordinary (t.freeDir l) := by
  obtain ⟨hparent, hroot, hlinks, hothers⟩ := h.freeDir_links hdots hl hdot hdotdot hdir hlast hempty
  have hold : ∀ x ∈ (t.freeDir l).links, x ∈ t.links := by
    intro x hx
    rw [hlinks]
    exact Multiset.mem_cons_of_mem (Multiset.mem_cons_of_mem (Multiset.mem_cons_of_mem hx))
  have hhome : ∀ x ∈ (t.freeDir l).links, x.dir ≠ l.node := fun x hx => (Multiset.mem_filter.mp hx).2
  -- a link in another directory that is not the name stays
  have hstays : ∀ x ∈ t.links, x.dir ≠ l.node → x.name ≠ l.name → x ∈ (t.freeDir l).links := by
    intro x hx hne hname
    exact Multiset.mem_filter.mpr ⟨mem_erase_of_name_ne hx hname, hne⟩
  have hcount : ∀ m, m ≠ l.node →
      t.count m = (t.freeDir l).count m + if l.dir = m then 1 else 0 := by
    intro m hm
    rw [count, count, hlinks, Multiset.countP_cons, Multiset.countP_cons, Multiset.countP_cons, if_neg hm.symm]
    rfl
  refine ⟨?_, ?_, ?_, ?_, ?_, ?_, ?_, ?_, ?_⟩
  · refine Multiset.nodup_of_le (Multiset.map_le_map ?_) (h.nodup_erase l)
    exact Multiset.filter_le _ _
  · exact fun x hx => ⟨h.homes x (hold x hx), hhome x hx⟩
  · exact fun x hx => ⟨⟨(h.refers x (hold x hx)).1, hothers x hx⟩, (h.refers x (hold x hx)).2⟩
  · exact fun d hd => ⟨h.subset hd.1, hd.2⟩
  · rintro m ⟨hm, hne⟩ hmord
    have hm' := hcount m hne
    have hold := h.counted m hm hmord
    change Function.update (Function.update t.hardLinks l.node 0) l.dir (t.hardLinks l.dir - 1) m = _
    rcases eq_or_ne m l.dir with rfl | hmp
    · rw [if_pos rfl] at hm'
      rw [Function.update_self]
      omega
    · rw [if_neg hmp.symm] at hm'
      rw [Function.update_of_ne hmp, Function.update_of_ne hne]
      omega
  · rintro m ⟨hm, hne⟩ hmord
    change Function.update (Function.update t.hardLinks l.node 0) l.dir (t.hardLinks l.dir - 1) m ≠ 0
    rcases eq_or_ne m l.dir with rfl | hmp
    · -- the parent still has its own link
      have hself := hstays _ (h.self l.dir (h.homes l hl)) hparent hdot.symm
      have hpos : 0 < (t.freeDir l).count l.dir := Multiset.countP_pos.mpr ⟨_, hself, rfl⟩
      have hm' := hcount l.dir hne
      have hold := h.counted l.dir hm hmord
      rw [if_pos rfl] at hm'
      rw [Function.update_self]
      omega
    · rw [Function.update_of_ne hmp, Function.update_of_ne hne]
      exact h.kept m hm hmord
  · exact fun d hd => hstays _ (h.self d hd.1) hd.2 hdot.symm
  · exact fun x hx hxdir hxdot hxdotdot => hstays _ (h.parent x (hold x hx) hxdir.1 hxdot hxdotdot) hxdir.2 hdotdot.symm
  · exact ⟨⟨h.rooted.1, hroot⟩, hstays _ h.rooted.2 hroot hdotdot.symm⟩

end NameTree

end DualFuse.Library
