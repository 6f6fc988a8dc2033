import DualFuse.Library.DoubleChain
import DualFuse.Library.Execution

/-! The objects of a mounted ext2 volume (`ext2CachePush` of `filesystems/ext2/ext2_caching.c`
and the part of `ext2Open` in `filesystems/ext2/ext2_controller.c` that follows the search for
the inode). There is an object for every inode that was ever opened; the objects are linked in
both directions, the one that was used last in front. Objects are known by their addresses,
and zero is no object. A loop over the list stops when its fuel is used up, which stands for a
loop that does not end. The locks are left out. -/

namespace DualFuse.Filesystems

open Library

/-- The links of an object, its inode and its users. -/
structure Ext2FoundObject where
  next : ℕ
  prev : ℕ
  inode : ℕ
  openFds : ℕ
  deriving DecidableEq, Repr

structure Ext2OpenFd where
  inodeNum : ℕ
  globalObject : ℕ
  deriving DecidableEq, Repr

/-- The objects that are allocated, by address, and the open descriptors. -/
structure Ext2Objects where
  objects : ℕ → Option Ext2FoundObject
  firstObject : ℕ
  fds : List Ext2OpenFd

namespace Ext2Objects

def mounted : Ext2Objects := ⟨fun _ => none, 0, []⟩

def object (s : Ext2Objects) (a : ℕ) : Exec Ext2FoundObject :=
  match s.objects a with
  | none => .error .fault
  | some o => .ok o

def modify (s : Ext2Objects) (a : ℕ) (f : Ext2FoundObject → Ext2FoundObject) : Exec Ext2Objects := do
  let o ← s.object a
  .ok { s with objects := Function.update s.objects a (some (f o)) }

def setNext (s : Ext2Objects) (a n : ℕ) : Exec Ext2Objects := s.modify a fun o => { o with next := n }

def setPrev (s : Ext2Objects) (a n : ℕ) : Exec Ext2Objects := s.modify a fun o => { o with prev := n }

/-- A link that is set where there is an object. -/
def relinkNext (s : Ext2Objects) (a n : ℕ) : Exec Ext2Objects := if a ≠ 0 then s.setNext a n else .ok s

def relinkPrev (s : Ext2Objects) (a n : ℕ) : Exec Ext2Objects := if a ≠ 0 then s.setPrev a n else .ok s

/-- The object of an inode from `target` on, or zero. -/
def targetObject (s : Ext2Objects) (inode : ℕ) : ℕ → ℕ → Exec ℕ
  | 0, _ => .error .halt
  | fuel + 1, target =>
    if target = 0 then .ok 0
    else do
      let o ← s.object target
      if o.inode = inode then .ok target else s.targetObject inode fuel o.next

/-- What `calloc` leaves when it returns `target`. -/
def calloc (s : Ext2Objects) (target : ℕ) : Ext2Objects :=
  if target = 0 then s else { s with objects := Function.update s.objects target (some ⟨0, 0, 0, 0⟩) }

/-- The end of both functions: the first object leads back to the new one. -/
def linkBack (s : Ext2Objects) (a : ℕ) : Exec Ext2Objects := do
  let s := { s with firstObject := a }
  let o ← s.object a
  s.relinkPrev o.next a

def newObject (s : Ext2Objects) (inode target : ℕ) : Exec Ext2Objects := do
  let s ← (s.calloc target).modify target fun o => { o with inode := inode }
  let s ← s.setNext target s.firstObject
  s.linkBack target

/-- The object of an inode, which is made when there is none. -/
def findObject (s : Ext2Objects) (inode target found : ℕ) : Exec (Ext2Objects × ℕ) :=
  if found = 0 then (fun s => (s, target)) <$> s.newObject inode target else .ok (s, found)

/-- One more user, and the descriptor. -/
def openDescriptor (s : Ext2Objects) (inode globalObject : ℕ) : Exec Ext2Objects := do
  let s ← s.modify globalObject fun o => { o with openFds := (o.openFds + 1) % 2 ^ 32 }
  .ok { s with fds := s.fds ++ [⟨inode, globalObject⟩] }

/-- `ext2Open` of an inode that the path led to. -/
def ext2Open (s : Ext2Objects) (fuel inode target : ℕ) : Exec Ext2Objects := do
  let found ← s.targetObject inode fuel s.firstObject
  let (s, globalObject) ← s.findObject inode target found
  s.openDescriptor inode globalObject

def ext2CachePush (s : Ext2Objects) (globalObject : ℕ) : Exec Ext2Objects :=
  if s.firstObject = globalObject then .ok s
  else do
    let o ← s.object globalObject
    let s ← s.setNext globalObject s.firstObject
    let s ← s.setPrev globalObject 0
    let s ← s.relinkNext o.prev o.next
    let s ← s.relinkPrev o.next o.prev
    s.linkBack globalObject

/-- An open names the inode and what `calloc` would return; a push names a descriptor. -/
inductive Call where
  | ext2Open (inode target : ℕ)
  | ext2CachePush (fd : ℕ)
  deriving DecidableEq, Repr

def step (fuel : ℕ) (s : Ext2Objects) : Call → Exec Ext2Objects
  | .ext2Open inode target => s.ext2Open fuel inode target
  | .ext2CachePush fd =>
    match s.fds[fd]? with
    | none => .ok s
    | some fd => s.ext2CachePush fd.globalObject

/-- `calloc` returns zero or memory that no object has. -/
def Fresh (s : Ext2Objects) : Call → Prop
  | .ext2Open _ target => target = 0 ∨ s.objects target = none
  | .ext2CachePush _ => True

instance (s : Ext2Objects) : (c : Call) → Decidable (s.Fresh c)
  | .ext2Open _ target => inferInstanceAs (Decidable (target = 0 ∨ s.objects target = none))
  | .ext2CachePush _ => isTrue trivial

/-! ### Objects by their fields -/

def nexts (s : Ext2Objects) (a : ℕ) : Option ℕ := (s.objects a).map Ext2FoundObject.next

def prevs (s : Ext2Objects) (a : ℕ) : Option ℕ := (s.objects a).map Ext2FoundObject.prev

def inodes (s : Ext2Objects) (a : ℕ) : Option ℕ := (s.objects a).map Ext2FoundObject.inode

/-- The objects of the volume are those of `l`, in this order, one for an inode. -/
structure Holds (s : Ext2Objects) (l : List ℕ) : Prop where
  null : s.objects 0 = none
  chain : ∃ e, DoubleChain s.nexts s.prevs 0 s.firstObject l e 0
  nodup : l.Nodup
  all : ∀ a, s.objects a ≠ none ↔ a ∈ l
  single : ∀ a ∈ l, ∀ b ∈ l, s.inodes a = s.inodes b → a = b
  fds : ∀ fd ∈ s.fds, s.inodes fd.globalObject = some fd.inodeNum

/-- The objects after a call: an open finds the object of its inode or puts a new one in front,
and a push brings one to the front. -/
def objectsAfter (s : Ext2Objects) (l : List ℕ) : Call → List ℕ
  | .ext2Open inode target => if ∃ a ∈ l, s.inodes a = some inode then l else target :: l
  | .ext2CachePush fd =>
    match s.fds[fd]? with
    | none => l
    | some fd => fd.globalObject :: l.erase fd.globalObject

variable {s s' : Ext2Objects} {a n : ℕ} {l : List ℕ} {o : Ext2FoundObject}

theorem object_eq (h : s.objects a = some o) : s.object a = .ok o := by rw [object, h]

theorem objects_eq_none_iff : s.objects a = none ↔ s.inodes a = none := by simp [inodes]

theorem exists_object (h : s.inodes a ≠ none) : ∃ o, s.objects a = some o :=
  Option.ne_none_iff_exists'.mp (fun hnone => h (objects_eq_none_iff.mp hnone))

/-- Links may have changed, and the numbers of users. -/
structure Relinked (s s' : Ext2Objects) : Prop where
  inodes : s'.inodes = s.inodes
  fds : s'.fds = s.fds

theorem Relinked.trans {s'' : Ext2Objects} (h : s.Relinked s') (h' : s'.Relinked s'') : s.Relinked s'' :=
  ⟨h'.inodes.trans h.inodes, h'.fds.trans h.fds⟩

theorem modify_eq (h : s.objects a = some o) (f : Ext2FoundObject → Ext2FoundObject) :
    s.modify a f = .ok { s with objects := Function.update s.objects a (some (f o)) } := by
  rw [modify, object_eq h, Exec.ok_bind]

theorem map_update {β : Type} (g : Ext2FoundObject → β) (o : Ext2FoundObject) :
    (fun x => (Function.update s.objects a (some o) x).map g) =
      Function.update (fun x => (s.objects x).map g) a (some (g o)) := by
  funext x
  by_cases hx : x = a
  · subst hx
    simp
  · simp [hx]

theorem map_update_same {β : Type} (g : Ext2FoundObject → β) {o' : Ext2FoundObject} (h : s.objects a = some o)
    (hsame : g o' = g o) :
    (fun x => (Function.update s.objects a (some o') x).map g) = fun x => (s.objects x).map g := by
  rw [map_update, hsame]
  apply Function.update_eq_self_iff.mpr
  rw [h, Option.map_some]

theorem exists_setNext (h : s.inodes a ≠ none) (n : ℕ) : ∃ s', s.setNext a n = .ok s' ∧ s.Relinked s' ∧
    s'.firstObject = s.firstObject ∧ s'.nexts = Function.update s.nexts a (some n) ∧ s'.prevs = s.prevs := by
  obtain ⟨o, ho⟩ := exists_object h
  exact ⟨_, modify_eq ho _, ⟨map_update_same Ext2FoundObject.inode ho rfl, rfl⟩, rfl,
    map_update Ext2FoundObject.next _, map_update_same Ext2FoundObject.prev ho rfl⟩

theorem exists_setPrev (h : s.inodes a ≠ none) (n : ℕ) : ∃ s', s.setPrev a n = .ok s' ∧ s.Relinked s' ∧
    s'.firstObject = s.firstObject ∧ s'.nexts = s.nexts ∧ s'.prevs = Function.update s.prevs a (some n) := by
  obtain ⟨o, ho⟩ := exists_object h
  exact ⟨_, modify_eq ho _, ⟨map_update_same Ext2FoundObject.inode ho rfl, rfl⟩, rfl,
    map_update_same Ext2FoundObject.next ho rfl, map_update Ext2FoundObject.prev _⟩

theorem exists_relinkNext (h : a ≠ 0 → s.inodes a ≠ none) (n : ℕ) : ∃ s', s.relinkNext a n = .ok s' ∧ s.Relinked s' ∧
    s'.firstObject = s.firstObject ∧ s'.nexts = (if a ≠ 0 then Function.update s.nexts a (some n) else s.nexts) ∧
      s'.prevs = s.prevs := by
  unfold relinkNext
  split_ifs with hzero
  · exact exists_setNext (h hzero) n
  · exact ⟨s, rfl, ⟨rfl, rfl⟩, rfl, rfl, rfl⟩

theorem exists_relinkPrev (h : a ≠ 0 → s.inodes a ≠ none) (n : ℕ) : ∃ s', s.relinkPrev a n = .ok s' ∧ s.Relinked s' ∧
    s'.firstObject = s.firstObject ∧ s'.nexts = s.nexts ∧
      s'.prevs = if a ≠ 0 then Function.update s.prevs a (some n) else s.prevs := by
  unfold relinkPrev
  split_ifs with hzero
  · exact exists_setPrev (h hzero) n
  · exact ⟨s, rfl, ⟨rfl, rfl⟩, rfl, rfl, rfl⟩

/-- The first object is `a`, and the one behind it leads back to it. -/
theorem exists_linkBack (hnext : s.nexts a = some n) (hn : n ≠ 0 → s.inodes n ≠ none) :
    ∃ s', s.linkBack a = .ok s' ∧ s.Relinked s' ∧ s'.firstObject = a ∧ s'.nexts = s.nexts ∧
      s'.prevs = if n ≠ 0 then Function.update s.prevs n (some a) else s.prevs := by
  obtain ⟨o, ho, rfl⟩ := Option.map_eq_some_iff.mp hnext
  obtain ⟨s', hs', hrel, hfirst, hlinks⟩ := exists_relinkPrev (s := { s with firstObject := a }) (a := o.next) hn a
  refine ⟨s', ?_, ⟨hrel.inodes, hrel.fds⟩, hfirst, hlinks⟩
  rw [linkBack, object_eq (s := { s with firstObject := a }) ho, Exec.ok_bind, hs']

/-! ### One call -/

section Calls

variable {inode fuel target p g : ℕ}

theorem targetObject_eq (hnull : s.objects 0 = none) (h : Path s.nexts p l 0) (hfuel : l.length < fuel) :
    s.targetObject inode fuel p = .ok ((l.find? fun a => s.inodes a = some inode).getD 0) := by
  induction l generalizing p fuel with
  | nil =>
    obtain ⟨fuel, rfl⟩ := Nat.exists_eq_add_of_lt hfuel
    rw [targetObject, if_pos (Path.nil_iff.mp h)]
    rfl
  | cons a l ih =>
    obtain ⟨rfl, r, hr, h⟩ := h
    obtain ⟨fuel, rfl⟩ : ∃ n, fuel = n + 1 := ⟨fuel - 1, by omega⟩
    obtain ⟨o, ho, rfl⟩ := Option.map_eq_some_iff.mp hr
    have hzero : p ≠ 0 := by
      rintro rfl
      rw [hnull] at ho
      cases ho
    have hinode : s.inodes p = some o.inode := by rw [inodes, ho, Option.map_some]
    rw [targetObject, if_neg hzero, object_eq ho, Exec.ok_bind]
    by_cases hfound : o.inode = inode
    · rw [if_pos hfound, List.find?_cons_of_pos (by simp [hinode, hfound])]
      rfl
    · rw [if_neg hfound, List.find?_cons_of_neg (by simp [hinode, hfound])]
      exact ih h (by simpa using hfuel)

namespace Holds

variable (h : s.Holds l)
include h

theorem mem_iff : a ∈ l ↔ s.inodes a ≠ none := by
  rw [← h.all, Ne, objects_eq_none_iff]

theorem zero_notMem : 0 ∉ l := fun hmem => (h.all 0).mpr hmem h.null

theorem first_eq : s.firstObject = l.headD 0 := by
  obtain ⟨e, he⟩ := h.chain
  exact he.path.eq_headD

theorem first_mem (hne : s.firstObject ≠ 0) : s.firstObject ∈ l := by
  rw [h.first_eq]
  cases l with
  | nil => exact absurd h.first_eq hne
  | cons a l => exact List.mem_cons_self

/-- The same objects in another order. -/
theorem reorder {l' : List ℕ} (hrel : s.Relinked s') (hperm : l'.Perm l)
    (hchain : ∃ e, DoubleChain s'.nexts s'.prevs 0 s'.firstObject l' e 0) : s'.Holds l' where
  null := by
    rw [objects_eq_none_iff, hrel.inodes, ← objects_eq_none_iff]
    exact h.null
  chain := hchain
  nodup := hperm.nodup_iff.mpr h.nodup
  all a := by rw [Ne, objects_eq_none_iff, hrel.inodes, hperm.mem_iff, h.mem_iff]
  single a ha b hb heq := by
    rw [hrel.inodes] at heq
    exact h.single a (hperm.mem_iff.mp ha) b (hperm.mem_iff.mp hb) heq
  fds := by
    rw [hrel.fds, hrel.inodes]
    exact h.fds

end Holds

/-- The object comes to the front, and the others stay in their order. -/
theorem ext2CachePush_spec (h : s.Holds l) (hg : g ∈ l) :
    ∃ s', s.ext2CachePush g = .ok s' ∧ s'.Holds (g :: l.erase g) := by
  obtain ⟨l, l', rfl⟩ := List.append_of_mem hg
  obtain ⟨e, hchain⟩ := h.chain
  have hnodup := h.nodup
  have hz := h.zero_notMem
  have hgl : g ∉ l ∧ g ∉ l' := by
    simp only [List.nodup_append, List.nodup_cons, List.mem_cons] at hnodup
    grind
  rw [List.erase_append_right _ hgl.1, List.erase_cons_head, ext2CachePush]
  by_cases hl : l = []
  · subst hl
    rw [if_pos hchain.1]
    exact ⟨s, rfl, h⟩
  · obtain ⟨o, ho⟩ := exists_object (h.mem_iff.mp hg)
    have hprev : s.prevs g = some o.prev := by rw [prevs, ho, Option.map_some]
    have hnext : s.nexts g = some o.next := by rw [nexts, ho, Option.map_some]
    obtain ⟨hm, hr⟩ := hchain.neighbours
    have hfirst : s.firstObject ∈ l := by
      obtain ⟨x, l, rfl⟩ := List.exists_cons_of_ne_nil hl
      rw [hchain.1]
      exact List.mem_cons_self
    have hbefore : o.prev ∈ l := by
      obtain ⟨x, l, rfl⟩ := List.exists_cons_of_ne_nil hl
      rw [Option.some.inj (hprev.symm.trans hm), List.getLastD_cons]
      exact List.getLastD_mem_cons
    have hafter : o.next ≠ 0 → o.next ∈ l ++ g :: l' := by
      intro hne
      exact (hchain.path.next_mem hg hnext).resolve_right hne
    have hknown : ∀ a ∈ l ++ g :: l', s.inodes a ≠ none := fun a ha => h.mem_iff.mp ha
    have hzero : ∀ a ∈ l, a ≠ 0 := by
      rintro a ha rfl
      exact hz (List.mem_append_left _ ha)
    have hother : ∀ a ∈ l, a ≠ g := by
      rintro a ha rfl
      exact hgl.1 ha
    obtain ⟨s₁, hs₁, hrel₁, -, hnexts₁, hprevs₁⟩ := exists_setNext (hknown g hg) s.firstObject
    obtain ⟨s₂, hs₂, hrel₂, -, hnexts₂, hprevs₂⟩ :=
      exists_setPrev (s := s₁) (a := g) (by rw [hrel₁.inodes]; exact hknown g hg) 0
    have hrel₂ := hrel₁.trans hrel₂
    obtain ⟨s₃, hs₃, hrel₃, -, hnexts₃, hprevs₃⟩ := exists_relinkNext (s := s₂) (a := o.prev)
      (fun _ => by rw [hrel₂.inodes]; exact hknown _ (List.mem_append_left _ hbefore)) o.next
    have hrel₃ := hrel₂.trans hrel₃
    obtain ⟨s₄, hs₄, hrel₄, -, hnexts₄, hprevs₄⟩ := exists_relinkPrev (s := s₃) (a := o.next)
      (fun hne => by rw [hrel₃.inodes]; exact hknown _ (hafter hne)) o.prev
    have hrel₄ := hrel₃.trans hrel₄
    rw [hnexts₃, hnexts₂, hnexts₁, if_pos (hzero _ hbefore)] at hnexts₄
    rw [hprevs₃, hprevs₂, hprevs₁] at hprevs₄
    obtain ⟨s₅, hs₅, hrel₅, hfirst₅, hnexts₅, hprevs₅⟩ := exists_linkBack (s := s₄) (a := g) (n := s.firstObject)
      (by rw [hnexts₄, Function.update_of_ne (hother _ hbefore).symm, Function.update_self])
      (fun _ => by rw [hrel₄.inodes]; exact hknown _ (List.mem_append_left _ hfirst))
    rw [hnexts₄] at hnexts₅
    rw [hprevs₄, if_pos (hzero _ hfirst)] at hprevs₅
    have hrel := hrel₄.trans hrel₅
    refine ⟨s₅, ?_, h.reorder hrel List.perm_middle.symm ?_⟩
    · rw [if_neg (hother _ hfirst), object_eq ho, Exec.ok_bind, hs₁, Exec.ok_bind, hs₂, Exec.ok_bind, hs₃,
        Exec.ok_bind, hs₄, Exec.ok_bind, hs₅]
    · rw [hnexts₅, hprevs₅, hfirst₅]
      exact hchain.move_front hl hnodup hz hprev hnext

theorem newObject_zero (h : s.Holds l) : s.newObject inode 0 = .error .fault := by
  rw [newObject, calloc, if_pos rfl, modify, object, h.null]
  rfl

/-- The new object is in front. -/
theorem newObject_spec (h : s.Holds l) (hzero : target ≠ 0) (hnew : s.objects target = none)
    (hinode : ∀ a ∈ l, s.inodes a ≠ some inode) : ∃ s', s.newObject inode target = .ok s' ∧
      s'.Holds (target :: l) ∧ s'.inodes target = some inode := by
  obtain ⟨e, hchain⟩ := h.chain
  have hfresh : target ∉ l := fun hmem => (h.all target).mpr hmem hnew
  let o : Ext2FoundObject := ⟨0, 0, inode, 0⟩
  let s₁ : Ext2Objects := { s with objects := Function.update s.objects target (some o) }
  have hmodify : (s.calloc target).modify target (fun o => { o with inode := inode }) = .ok s₁ := by
    rw [calloc, if_neg hzero, modify_eq (Function.update_self _ _ _), Function.update_idem]
  have hinodes : s₁.inodes = Function.update s.inodes target (some inode) := map_update Ext2FoundObject.inode o
  have hprevs : s₁.prevs = Function.update s.prevs target (some 0) := map_update Ext2FoundObject.prev o
  have hnexts : s₁.nexts = Function.update s.nexts target (some 0) := map_update Ext2FoundObject.next o
  have hknown : ∀ a ∈ target :: l, s₁.inodes a ≠ none := by
    intro a ha
    rw [hinodes, Function.update_apply]
    split_ifs with heq
    · exact Option.some_ne_none _
    · exact h.mem_iff.mp ((List.mem_cons.mp ha).resolve_left heq)
  obtain ⟨s₂, hs₂, hrel₂, -, hnexts₂, hprevs₂⟩ :=
    exists_setNext (s := s₁) (a := target) (hknown target List.mem_cons_self) s.firstObject
  rw [hnexts, Function.update_idem] at hnexts₂
  rw [hprevs] at hprevs₂
  obtain ⟨s₃, hs₃, hrel₃, hfirst₃, hnexts₃, hprevs₃⟩ := exists_linkBack (s := s₂) (a := target) (n := s.firstObject)
    (by rw [hnexts₂, Function.update_self]) (fun hne => by
      rw [hrel₂.inodes]
      exact hknown _ (List.mem_cons_of_mem _ (h.first_mem hne)))
  rw [hnexts₂] at hnexts₃
  rw [hprevs₂] at hprevs₃
  have hrel := hrel₂.trans hrel₃
  have hinodes₃ : s₃.inodes = Function.update s.inodes target (some inode) := hrel.inodes.trans hinodes
  have hold : ∀ a ∈ l, s₃.inodes a = s.inodes a := by
    intro a ha
    rw [hinodes₃, Function.update_of_ne]
    rintro rfl
    exact hfresh ha
  refine ⟨s₃, ?_, ⟨?_, ?_, List.nodup_cons.mpr ⟨hfresh, h.nodup⟩, fun a => ?_, fun a ha b hb heq => ?_, ?_⟩,
    by rw [hinodes₃, Function.update_self]⟩
  · rw [newObject, hmodify, Exec.ok_bind]
    change (s₁.setNext target s.firstObject >>= fun s => s.linkBack target) = .ok s₃
    rw [hs₂, Exec.ok_bind, hs₃]
  · rw [objects_eq_none_iff, hinodes₃, Function.update_of_ne hzero.symm, ← objects_eq_none_iff]
    exact h.null
  · rw [hfirst₃]
    refine hchain.push_front ?_ ?_ ?_ ?_ ?_
    · rw [hnexts₃, Function.update_self]
    · rw [hprevs₃]
      split_ifs with hne
      · rw [Function.update_of_ne, Function.update_self]
        rintro heq
        exact hfresh (heq ▸ h.first_mem hne)
      · exact Function.update_self _ _ _
    · intro x hx
      have hfirst : s.firstObject = x := by rw [h.first_eq, List.headD_eq_head?_getD, hx, Option.getD_some]
      have hne : s.firstObject ≠ 0 := by
        rintro heq
        exact h.zero_notMem (heq ▸ hfirst ▸ List.mem_of_mem_head? hx)
      rw [hprevs₃, if_pos hne, hfirst, Function.update_self]
    · intro x hx
      rw [hnexts₃, Function.update_of_ne]
      rintro rfl
      exact hfresh hx
    · intro x hx
      have hxt : x ≠ target := by
        rintro rfl
        exact hfresh (List.mem_of_mem_tail hx)
      have hxf : x ≠ s.firstObject := by
        rintro rfl
        have hfirst := h.first_eq
        cases l with
        | nil => exact List.not_mem_nil hx
        | cons y l =>
          rw [hfirst] at hx
          exact (List.nodup_cons.mp h.nodup).1 hx
      rw [hprevs₃]
      split_ifs
      · rw [Function.update_of_ne hxf, Function.update_of_ne hxt]
      · exact Function.update_of_ne hxt _ _
  · rw [Ne, objects_eq_none_iff, hinodes₃, Function.update_apply, List.mem_cons, h.mem_iff]
    split_ifs with heq
    · simp [heq]
    · simp [heq]
  · rcases List.mem_cons.mp ha with rfl | ha'
    · rcases List.mem_cons.mp hb with rfl | hb'
      · rfl
      · rw [hold b hb', hinodes₃, Function.update_self] at heq
        exact absurd heq.symm (hinode b hb')
    · rcases List.mem_cons.mp hb with rfl | hb'
      · rw [hold a ha', hinodes₃, Function.update_self] at heq
        exact absurd heq (hinode a ha')
      · rw [hold a ha', hold b hb'] at heq
        exact h.single a ha' b hb' heq
  · intro fd hfd
    have hfd := h.fds fd (hrel.fds ▸ hfd)
    rw [hold _ (h.mem_iff.mpr (by simp [hfd])), hfd]

theorem openDescriptor_spec (h : s.Holds l) (ha : s.inodes a = some inode) :
    ∃ s', s.openDescriptor inode a = .ok s' ∧ s'.Holds l := by
  obtain ⟨o, ho⟩ := exists_object (s := s) (a := a) (by simp [ha])
  let s₁ : Ext2Objects :=
    { s with objects := Function.update s.objects a (some { o with openFds := (o.openFds + 1) % 2 ^ 32 }) }
  have hinodes : s₁.inodes = s.inodes := map_update_same Ext2FoundObject.inode ho rfl
  have hholds : s₁.Holds l := by
    refine h.reorder ⟨hinodes, rfl⟩ (List.Perm.refl l) ?_
    rw [show s₁.nexts = s.nexts from map_update_same Ext2FoundObject.next ho rfl,
      show s₁.prevs = s.prevs from map_update_same Ext2FoundObject.prev ho rfl]
    exact h.chain
  refine ⟨{ s₁ with fds := s₁.fds ++ [⟨inode, a⟩] }, ?_, { hholds with fds := fun fd hfd => ?_ }⟩
  · rw [openDescriptor, modify_eq ho, Exec.ok_bind]
  · rcases List.mem_append.mp hfd with hfd | hfd
    · exact hholds.fds fd hfd
    · rw [List.mem_singleton.mp hfd]
      exact (congrFun hinodes a).trans ha

/-- An open finds the object of its inode or puts a new one in front; without memory for it
the open faults. -/
theorem ext2Open_spec (h : s.Holds l) (hfuel : l.length < fuel) (hnew : target = 0 ∨ s.objects target = none) :
    Exec.Meets (fun e => e = .fault ∧ target = 0)
      (fun s' => s'.Holds (if ∃ a ∈ l, s.inodes a = some inode then l else target :: l))
      (s.ext2Open fuel inode target) := by
  obtain ⟨e, hchain⟩ := h.chain
  rw [ext2Open, targetObject_eq h.null hchain.path hfuel, Exec.ok_bind]
  cases hfind : l.find? fun a => s.inodes a = some inode with
  | some a =>
    have hmem := List.mem_of_find?_eq_some hfind
    have ha : s.inodes a = some inode := by simpa using List.find?_some hfind
    have hne : a ≠ 0 := by
      rintro rfl
      exact h.zero_notMem hmem
    obtain ⟨s', hs', hholds⟩ := openDescriptor_spec h ha
    rw [Option.getD_some, findObject, if_neg hne, Exec.ok_bind, if_pos ⟨a, hmem, ha⟩]
    dsimp only
    rw [hs']
    exact hholds
  | none =>
    have hnone : ∀ a ∈ l, s.inodes a ≠ some inode := by simpa using hfind
    rw [Option.getD_none, findObject, if_pos rfl, if_neg (fun ⟨a, ha, hinode⟩ => hnone a ha hinode)]
    by_cases hzero : target = 0
    · subst hzero
      rw [newObject_zero h]
      exact ⟨rfl, rfl⟩
    · obtain ⟨s₁, hs₁, hholds₁, hinode⟩ := newObject_spec h hzero (hnew.resolve_left hzero) hnone
      obtain ⟨s', hs', hholds⟩ := openDescriptor_spec hholds₁ hinode
      rw [hs₁, Except.map_ok, Exec.ok_bind]
      dsimp only
      rw [hs']
      exact hholds

theorem objectsAfter_length_le (c : Call) : (s.objectsAfter l c).length ≤ l.length + 1 := by
  cases c with
  | ext2Open inode target =>
    rw [objectsAfter]
    split_ifs
    · exact Nat.le_succ _
    · exact le_rfl
  | ext2CachePush fd =>
    rw [objectsAfter]
    split
    · exact Nat.le_succ _
    · exact Nat.succ_le_succ List.length_erase_le

theorem step_spec {c : Call} (h : s.Holds l) (hfuel : l.length < fuel) (hnew : s.Fresh c) :
    Exec.Meets (fun e => e = .fault ∧ ∃ inode, c = .ext2Open inode 0) (fun s' => s'.Holds (s.objectsAfter l c))
      (s.step fuel c) := by
  cases c with
  | ext2Open inode target =>
    apply (ext2Open_spec h hfuel hnew).weaken
    rintro e ⟨he, rfl⟩
    exact ⟨he, inode, rfl⟩
  | ext2CachePush fd =>
    rw [step, objectsAfter]
    cases hfd : s.fds[fd]? with
    | none => exact h
    | some d =>
      have hknown : d.globalObject ∈ l := h.mem_iff.mpr (by simp [h.fds d (List.mem_of_getElem? hfd)])
      obtain ⟨s', hs', hholds⟩ := ext2CachePush_spec h hknown
      dsimp only
      rw [hs']
      exact hholds

end Calls

/-! ### Runs -/

theorem run_holds {fuel : ℕ} {calls : List Call} (h : s.Holds l) (hfuel : l.length + calls.length ≤ fuel)
    (hnew : Guarded (step fuel) Fresh s calls) :
    Exec.Meets (fun e => e = .fault ∧ ∃ inode, Call.ext2Open inode 0 ∈ calls) (fun s' => ∃ l', s'.Holds l')
      (run (step fuel) s calls) := by
  induction calls generalizing s l with
  | nil => exact ⟨l, h⟩
  | cons c calls ih =>
    rw [List.length_cons] at hfuel
    have hstep := step_spec h (by omega : l.length < fuel) hnew.1
    rw [run_cons]
    cases hs : s.step fuel c with
    | error e =>
      rw [hs] at hstep
      obtain ⟨he, inode, rfl⟩ := hstep
      exact ⟨he, inode, List.mem_cons_self⟩
    | ok s' =>
      rw [hs] at hstep
      have hlength := s.objectsAfter_length_le (l := l) c
      apply (ih hstep (by omega) (hnew.2 s' hs)).weaken
      rintro e ⟨he, inode, hmem⟩
      exact ⟨he, inode, List.mem_cons_of_mem _ hmem⟩

theorem mounted_holds : mounted.Holds [] where
  null := rfl
  chain := ⟨0, rfl, rfl⟩
  nodup := List.nodup_nil
  all a := by simp [mounted]
  single a ha := absurd ha List.not_mem_nil
  fds fd hfd := absurd hfd List.not_mem_nil

/-- Three inodes, the second of them again, and pushes of the last and of the first one. -/
def someCalls : List Call :=
  [.ext2Open 12 4096, .ext2Open 13 8192, .ext2Open 14 12288, .ext2Open 13 16384, .ext2CachePush 0, .ext2CachePush 1]

end Ext2Objects

end DualFuse.Filesystems
