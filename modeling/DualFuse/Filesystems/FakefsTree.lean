import DualFuse.Filesystems.Ext2.RecordLoops
import DualFuse.Filesystems.Sanitize
import DualFuse.Library.CString
import DualFuse.Library.Cursor

/-! The tree of pseudo files (`fakefsTraverse`, `fakefsTraversePath` and `fakefsGetDents64` of
`utility/fakefs/fakefs.cpp`, `dents_add` of `utility/dents.cpp`). A part of a path is compared
in place with the names of a directory, over the longer of the two lengths, and the first
entry that agrees or begins with a star is taken. A byte beyond a terminator is a fault. -/

namespace DualFuse.Filesystems.VfsPath.Fakefs

open Library Utility RecordLoop

def star : BitVec 8 := 42

/-- A name in memory. Its terminator comes behind the bytes, and its length is kept in an `int`. -/
structure Name where
  bytes : List (BitVec 8)
  zero_notMem : 0 ∉ bytes
  length_lt : bytes.length < 2 ^ 29

namespace Name

def text (name : Name) : List (BitVec 8) := name.bytes ++ [0]

def length (name : Name) : ℕ := name.bytes.length

end Name

/-- A file, with the list of the files in it. -/
inductive FakefsFile where
  | mk (filename : Name) (inode : ℕ) (inner : List FakefsFile)

namespace FakefsFile

def filename : FakefsFile → Name
  | mk filename _ _ => filename

def inode : FakefsFile → ℕ
  | mk _ inode _ => inode

def inner : FakefsFile → List FakefsFile
  | mk _ _ inner => inner

/-- `filename[0] == '*'`. -/
def wild (f : FakefsFile) : Prop := f.filename.bytes.head? = some star

instance (f : FakefsFile) : Decidable f.wild := inferInstanceAs (Decidable (_ = _))

end FakefsFile

/-! ### The walk of the code -/

/-- `fakefsTraverse` from an entry on. -/
def fakefsTraverse (search : List (BitVec 8)) (searchLength : ℕ) : List FakefsFile → Exec (Option FakefsFile)
  | [] => .ok none
  | browse :: next => do
    let first ← CString.charAt browse.filename.text 0
    if first = star then .ok (some browse)
    else do
      let order ← CString.memcmp search browse.filename.text (max browse.filename.length searchLength)
      if order = 0 then .ok (some browse) else fakefsTraverse search searchLength next

/-- The loop of `fakefsTraversePath` from `i` on, with the rounds that are left. -/
def traverseFrom (path : List (BitVec 8)) (len : ℕ) : ℕ → ℕ → ℕ → List FakefsFile → Exec (Option FakefsFile)
  | 0, _, _, _ => .ok none
  | left + 1, i, lastslash, fakefs => do
    let c ← CString.charAt path i
    if c = slash ∨ i = len - 1 then do
      let length := if i = len - 1 then i - lastslash - 1 + 1 else i - lastslash - 1
      match ← fakefsTraverse (path.drop (lastslash + 1)) length fakefs with
      | none => .ok none
      | some res => if i = len - 1 then .ok (some res) else traverseFrom path len left (i + 1) i res.inner
    else traverseFrom path len left (i + 1) lastslash fakefs

def fakefsTraversePath (start : FakefsFile) (path : List (BitVec 8)) : Exec (Option FakefsFile) := do
  let len ← CString.strlen path
  if len = 1 then .ok (some start) else traverseFrom path len (len - 1) 1 0 start.inner

/-! ### The listing of the code -/

/-- `tmp1` of a descriptor: null, -1, or an entry with those behind it in its list. -/
inductive DirPlace where
  | null
  | stop
  | entry (current : FakefsFile) (next : List FakefsFile)

namespace DirPlace

def ofList : List FakefsFile → DirPlace
  | [] => stop
  | f :: l => entry f l

/-- The entries from the cursor on. -/
def ahead : DirPlace → List FakefsFile
  | entry f l => f :: l
  | _ => []

end DirPlace

structure OpenDir where
  dirname : List (BitVec 8)
  tmp1 : DirPlace

/-- What `dents_add` says. -/
inductive DentsRes where
  | success | noSpace | full
  deriving DecidableEq

/-- The bytes that are taken count as an `int`. -/
def dentsAdd (allocatedlimit : ℕ) (hardlimit : BitVec 32) (e : Dirent) : DentsRes :=
  if hardlimit.toNat < wrap (intToSize (wrapInt allocatedlimit) + e.reclen + 2) then
    if wrapInt allocatedlimit ≠ 0 then .full else .noSpace
  else .success

def FakefsFile.dirent (f : FakefsFile) : Dirent := ⟨f.inode, 0, f.filename.bytes⟩

/-- What a call has done: the cursor, the bytes that are taken, the entries in the buffer,
and if not even one had space. -/
structure Listing where
  tmp1 : DirPlace
  allocatedlimit : ℕ
  entries : List Dirent
  einval : Bool

/-- The loop of `fakefsGetDents64`. -/
def listFrom (hardlimit : BitVec 32) : List FakefsFile → ℕ → List Dirent → Listing
  | [], a, entries => ⟨.stop, a, entries, false⟩
  | current :: next, a, entries =>
    if current.wild then listFrom hardlimit next a entries
    else if dentsAdd a hardlimit current.dirent = .success then
      listFrom hardlimit next (a + current.dirent.reclen) (entries ++ [current.dirent])
    else ⟨.entry current next, a, entries, dentsAdd a hardlimit current.dirent = .noSpace⟩

/-- What the call returns: the bytes in the buffer, or that not even one entry fits. -/
inductive Answer where
  | count (n : ℕ)
  | einval
  deriving DecidableEq

structure Reply where
  answer : Answer
  entries : List Dirent

def fakefsGetDents64 (root : FakefsFile) (hardlimit : BitVec 32) (fd : OpenDir) : Exec (OpenDir × Reply) := do
  let weAt ← fakefsTraversePath root fd.dirname
  let tmp1 ← match fd.tmp1, weAt with
    | .null, none => .error .fault
    | .null, some file => .ok (DirPlace.ofList file.inner)
    | tmp1, _ => .ok tmp1
  let r := listFrom hardlimit tmp1.ahead 0 []
  .ok (⟨fd.dirname, r.tmp1⟩, ⟨if r.einval then .einval else .count r.allocatedlimit, r.entries⟩)

/-! ### Chains of entries -/

/-- A path without empty parts: a slash, or a slash before each of its parts. -/
structure CleanPath where
  components : List (List (BitVec 8))
  clean : ∀ c ∈ components, c ≠ [] ∧ slash ∉ c ∧ 0 ∉ c

namespace CleanPath

def bytes (path : CleanPath) : PathName := render path.components

def text (path : CleanPath) : List (BitVec 8) := path.bytes ++ [0]

end CleanPath

/-- A file is taken for a part of a path, with the parts behind it: it begins with a star, or
its name, which is not shorter than the part, is what the path goes on with. -/
def FakefsFile.Taken (c : List (BitVec 8)) (cs : List (List (BitVec 8))) (f : FakefsFile) : Prop :=
  f.wild ∨ c.length ≤ f.filename.length ∧ f.filename.bytes <+: c ++ PathText.spread slash cs

instance (c : List (BitVec 8)) (cs : List (List (BitVec 8))) (f : FakefsFile) : Decidable (f.Taken c cs) :=
  inferInstanceAs (Decidable (_ ∨ _ ∧ _))

/-- The first file of a list that has a property. -/
def First (p : FakefsFile → Prop) (l : List FakefsFile) (f : FakefsFile) : Prop :=
  ∃ before after, l = before ++ f :: after ∧ p f ∧ ∀ g ∈ before, ¬p g

/-- A chain of files along the parts of a path, each the first of its directory that is taken. -/
inductive Chain : FakefsFile → List (List (BitVec 8)) → FakefsFile → Prop
  | nil (dir : FakefsFile) : Chain dir [] dir
  | cons {dir f t : FakefsFile} {c : List (BitVec 8)} {cs : List (List (BitVec 8))}
      (hfirst : First (FakefsFile.Taken c cs) dir.inner f) (hrest : Chain f cs t) : Chain dir (c :: cs) t

variable {c x : List (BitVec 8)} {cs : List (List (BitVec 8))} {l : List FakefsFile} {f t dir root : FakefsFile}

/-- The paths that `fsSanitize` makes are among them. -/
theorem exists_cleanPath {path : PathName} (h : Canonical path) (hzero : 0 ∉ path) :
    ∃ p : CleanPath, p.bytes = path := by
  obtain ⟨names, hkept, rfl⟩ := canonical_iff.mp h
  refine ⟨⟨names, fun c hc => ⟨(hkept c hc).ne_nil, (hkept c hc).1, fun hmem => hzero ?_⟩⟩, rfl⟩
  rw [render, if_neg (List.ne_nil_of_mem hc)]
  exact List.mem_flatMap.mpr ⟨c, hc, List.mem_cons_of_mem slash hmem⟩

theorem first_iff {p : FakefsFile → Prop} [DecidablePred p] : First p l f ↔ l.find? (fun g => p g) = some f := by
  rw [List.find?_eq_some_iff_append]
  constructor
  · rintro ⟨before, after, hl, hf, hbefore⟩
    exact ⟨by simpa using hf, before, after, hl, fun g hg => by simpa using hbefore g hg⟩
  · rintro ⟨hf, before, after, hl, hbefore⟩
    exact ⟨before, after, hl, by simpa using hf, fun g hg => by simpa using hbefore g hg⟩

theorem chain_nil_iff : Chain dir [] t ↔ t = dir := by
  constructor
  · rintro ⟨⟩
    rfl
  · rintro rfl
    exact .nil t

theorem chain_cons_iff : Chain dir (c :: cs) t ↔ ∃ f, First (FakefsFile.Taken c cs) dir.inner f ∧ Chain f cs t := by
  constructor
  · intro h
    cases h with
    | cons hfirst hrest => exact ⟨_, hfirst, hrest⟩
  · rintro ⟨f, hfirst, hrest⟩
    exact .cons hfirst hrest

/-- A name without a slash is taken for one part. -/
theorem taken_iff_of_plain (hf : slash ∉ f.filename.bytes) :
    f.Taken c cs ↔ f.wild ∨ f.filename.bytes = c := by
  refine or_congr_right ⟨?_, ?_⟩
  · rintro ⟨hlen, hpre⟩
    obtain ⟨rest, hrest⟩ := hpre
    obtain ⟨more, hmore⟩ : ∃ more, f.filename.bytes = c ++ more :=
      (List.prefix_of_prefix_length_le (List.prefix_append _ _) ⟨rest, hrest⟩ hlen).imp fun _ h => h.symm
    rw [hmore, List.append_assoc, List.append_cancel_left_eq] at hrest
    cases more with
    | nil => rw [hmore, List.append_nil]
    | cons a more =>
      cases cs with
      | nil => simp at hrest
      | cons d cs =>
        obtain ⟨rfl, -⟩ := List.cons.inj hrest
        exact absurd (by simp [hmore]) hf
  · intro h
    exact ⟨by rw [Name.length, h], by rw [h]; exact List.prefix_append _ _⟩

/-! ### One directory -/

theorem first_char (f : FakefsFile) : ∃ a, CString.charAt f.filename.text 0 = .ok a ∧ (a = star ↔ f.wild) := by
  obtain ⟨⟨bytes, hzero, hlen⟩, inode, inner⟩ := f
  cases bytes with
  | nil => exact ⟨0, rfl, by simp [FakefsFile.wild, FakefsFile.filename]; decide⟩
  | cons a bytes => exact ⟨a, rfl, by simp [FakefsFile.wild, FakefsFile.filename]⟩

/-- The comparison of a name with a part of a path stays inside both. -/
theorem compare_eq (hx : 0 ∉ c ++ PathText.spread slash cs) (f : FakefsFile) :
    ∃ z, CString.memcmp (c ++ PathText.spread slash cs ++ [0]) f.filename.text
        (max f.filename.length c.length) = .ok z ∧
      (z = 0 ↔ c.length ≤ f.filename.length ∧ f.filename.bytes <+: c ++ PathText.spread slash cs) := by
  generalize hrest : PathText.spread slash cs = rest at *
  have hlen : (c ++ rest).length = c.length + rest.length := List.length_append
  obtain ⟨z, hz, hzero⟩ := CString.memcmp_terminated hx f.filename.zero_notMem
    (n := max f.filename.length c.length) (by unfold Name.length; omega)
  refine ⟨z, hz, hzero.trans ?_⟩
  have htake : f.filename.bytes.take (max f.filename.length c.length) = f.filename.bytes :=
    List.take_of_length_le (le_max_left _ _)
  rw [htake]
  constructor
  · intro h
    have hlength := congrArg List.length h
    rw [List.length_take, hlen] at hlength
    refine ⟨by unfold Name.length at *; omega, h ▸ List.take_prefix _ _⟩
  · rintro ⟨hle, hpre⟩
    rw [max_eq_left hle]
    exact (List.prefix_iff_eq_take.mp hpre).symm

/-- The first entry that is taken is found. -/
theorem fakefsTraverse_eq (hx : 0 ∉ c ++ PathText.spread slash cs) (l : List FakefsFile) :
    fakefsTraverse (c ++ PathText.spread slash cs ++ [0]) c.length l = .ok (l.find? fun f => f.Taken c cs) := by
  induction l with
  | nil => rfl
  | cons f l ih =>
    obtain ⟨a, ha, hwild⟩ := first_char f
    obtain ⟨z, hz, hzero⟩ := compare_eq hx f
    rw [fakefsTraverse, ha, Exec.ok_bind, List.find?_cons]
    by_cases hstar : a = star
    · have htaken : f.Taken c cs := .inl (hwild.mp hstar)
      rw [if_pos hstar, decide_eq_true htaken]
    · rw [if_neg hstar, hz, Exec.ok_bind]
      by_cases hagree : z = 0
      · have htaken : f.Taken c cs := .inr (hzero.mp hagree)
        rw [if_pos hagree, decide_eq_true htaken]
      · have hnot : ¬f.Taken c cs := fun h => h.elim (fun hw => hstar (hwild.mpr hw)) fun hn => hagree (hzero.mpr hn)
        rw [if_neg hagree, decide_eq_false hnot, ih]

/-! ### The walk along a path -/

theorem charAt_of_split {path before after : List (BitVec 8)} {a : BitVec 8} {i : ℕ}
    (hpath : path = before ++ a :: after) (hi : i = before.length) : CString.charAt path i = .ok a := by
  rw [hpath, hi, CString.charAt_append]

/-- The walk over the rest of a part. -/
theorem traverseFrom_skip (part : List (BitVec 8)) (hplain : slash ∉ part) (pre : List (BitVec 8))
    {tail : List (BitVec 8)} (htail : tail ≠ []) {len : ℕ} (hlen : len = pre.length + part.length + tail.length)
    (left lastslash : ℕ) (l : List FakefsFile) :
    traverseFrom (pre ++ (part ++ (tail ++ [0]))) len (part.length + left) pre.length lastslash l =
      traverseFrom (pre ++ (part ++ (tail ++ [0]))) len left (pre.length + part.length) lastslash l := by
  induction part generalizing pre with
  | nil => simp
  | cons a part ih =>
    rw [List.mem_cons, not_or] at hplain
    have hpos := List.length_pos_iff.mpr htail
    have hstep := ih hplain.2 (pre ++ [a]) (by rw [hlen]; simp; omega)
    rw [List.append_assoc, List.singleton_append, List.length_append, List.length_singleton] at hstep
    have hgoes : ¬(a = slash ∨ pre.length = len - 1) := by
      rw [List.length_cons] at hlen
      exact fun h => h.elim (fun heq => hplain.1 heq.symm) (by omega)
    rw [List.length_cons, show part.length + 1 + left = part.length + left + 1 by omega, traverseFrom,
      List.cons_append, CString.charAt_append, Exec.ok_bind, if_neg hgoes, hstep]
    congr 1
    omega

/-- The round at the end of a part. -/
theorem traverseFrom_end {path : List (BitVec 8)} {len i lastslash : ℕ} {a : BitVec 8}
    (hchar : CString.charAt path i = .ok a) (hend : a = slash ∨ i = len - 1)
    (hrest : path.drop (lastslash + 1) = c ++ PathText.spread slash cs ++ [0])
    (hzero : 0 ∉ c ++ PathText.spread slash cs)
    (hlength : (if i = len - 1 then i - lastslash - 1 + 1 else i - lastslash - 1) = c.length) (left : ℕ)
    (l : List FakefsFile) :
    traverseFrom path len (left + 1) i lastslash l =
      match l.find? fun f => f.Taken c cs with
      | none => .ok none
      | some res => if i = len - 1 then .ok (some res) else traverseFrom path len left (i + 1) i res.inner := by
  rw [traverseFrom, hchar, Exec.ok_bind, if_pos hend]
  dsimp only
  rw [hlength, hrest, fakefsTraverse_eq hzero, Exec.ok_bind]

/-- The walk over the last part. -/
theorem traverseFrom_last (hne : c ≠ []) (hplain : slash ∉ c) (hzero : 0 ∉ c) (pre : List (BitVec 8))
    (l : List FakefsFile) :
    traverseFrom (pre ++ slash :: (c ++ [0])) (pre.length + 1 + c.length) c.length (pre.length + 1) pre.length l =
      .ok (l.find? fun f => f.Taken c []) := by
  obtain ⟨part, z, rfl⟩ := c.eq_nil_or_concat'.resolve_left hne
  have hlen : pre.length + 1 + (part ++ [z]).length = (pre ++ [slash]).length + part.length + [z].length := by
    simp
    omega
  have hskip := traverseFrom_skip part (fun h => hplain (by simp [h])) (pre ++ [slash]) (List.cons_ne_nil z []) hlen 1
    pre.length l
  have htext : pre ++ [slash] ++ (part ++ ([z] ++ [0])) = pre ++ slash :: (part ++ [z] ++ [0]) := by simp
  have hplace : (pre ++ [slash]).length = pre.length + 1 := by simp
  have hcount : part.length + 1 = (part ++ [z]).length := by simp
  rw [htext, hplace, hcount] at hskip
  rw [hskip]
  have hsplit : pre ++ slash :: (part ++ [z] ++ [0]) = pre ++ [slash] ++ part ++ z :: [0] := by simp
  have hchar := charAt_of_split (i := pre.length + 1 + part.length) hsplit (by simp; omega)
  have hlast : pre.length + 1 + part.length = pre.length + 1 + (part ++ [z]).length - 1 := by
    rw [← hcount]
    omega
  have hrest : (pre ++ slash :: (part ++ [z] ++ [0])).drop (pre.length + 1) =
      part ++ [z] ++ PathText.spread slash [] ++ [0] := by
    rw [← List.drop_drop, List.drop_left, PathText.spread_nil, List.append_nil]
    rfl
  rw [traverseFrom_end hchar (.inr hlast) hrest (by simpa using hzero) (by rw [if_pos hlast, ← hcount]; omega)]
  cases l.find? fun f => f.Taken (part ++ [z]) [] with
  | none => rfl
  | some res => exact if_pos hlast

/-- The walk over a part with a part behind it. -/
theorem traverseFrom_part {d : List (BitVec 8)} {ds : List (List (BitVec 8))} (hplain : slash ∉ c)
    (hzero : 0 ∉ c ++ PathText.spread slash (d :: ds)) (hd : d ≠ []) (pre : List (BitVec 8)) (l : List FakefsFile) :
    let rest := d ++ PathText.spread slash ds
    let path := pre ++ slash :: (c ++ PathText.spread slash (d :: ds) ++ [0])
    let len := pre.length + 1 + c.length + 1 + rest.length
    traverseFrom path len (c.length + (rest.length + 1)) (pre.length + 1) pre.length l =
      match l.find? fun f => f.Taken c (d :: ds) with
      | none => .ok none
      | some res =>
        traverseFrom path len rest.length (pre.length + 1 + c.length + 1) (pre.length + 1 + c.length) res.inner := by
  intro rest path len
  have hpos := List.length_pos_iff.mpr hd
  have hrestlen : 0 < rest.length := by
    rw [List.length_append]
    omega
  have htext : pre ++ [slash] ++ (c ++ (slash :: rest ++ [0])) = path := by simp [path, rest]
  have hplace : (pre ++ [slash]).length = pre.length + 1 := by simp
  have hlen : len = (pre ++ [slash]).length + c.length + (slash :: rest).length := by
    rw [hplace, List.length_cons]
    omega
  have hskip := traverseFrom_skip c hplain (pre ++ [slash]) (List.cons_ne_nil slash rest) hlen (rest.length + 1)
    pre.length l
  rw [htext, hplace] at hskip
  rw [hskip]
  have hsplit : path = pre ++ [slash] ++ c ++ slash :: (rest ++ [0]) := by simp [path, rest]
  have hchar := charAt_of_split (i := pre.length + 1 + c.length) hsplit (by simp; omega)
  have hnotlast : pre.length + 1 + c.length ≠ len - 1 := by omega
  have hdrop : path.drop (pre.length + 1) = c ++ PathText.spread slash (d :: ds) ++ [0] := by
    rw [← List.drop_drop, List.drop_left]
    rfl
  rw [traverseFrom_end hchar (.inl rfl) hdrop hzero (by rw [if_neg hnotlast]; omega)]
  simp only [if_neg hnotlast]

/-- Clean parts have no terminator. -/
theorem zero_notMem (hclean : ∀ e ∈ c :: cs, e ≠ [] ∧ slash ∉ e ∧ 0 ∉ e) : 0 ∉ c ++ PathText.spread slash cs := by
  intro hmem
  have hspread : 0 ∈ PathText.spread slash (c :: cs) := List.mem_cons_of_mem slash hmem
  obtain ⟨e, he, hzero⟩ := List.mem_flatMap.mp hspread
  rcases List.mem_cons.mp hzero with hslash | hzero
  · exact absurd hslash (by decide)
  · exact (hclean e he).2.2 hzero

/-- From behind a slash on, the walk takes the parts that are left. -/
theorem traverseFrom_spec (hclean : ∀ e ∈ c :: cs, e ≠ [] ∧ slash ∉ e ∧ 0 ∉ e) (pre : List (BitVec 8))
    (dir : FakefsFile) :
    ∃ r, traverseFrom (pre ++ slash :: (c ++ PathText.spread slash cs ++ [0]))
        (pre.length + 1 + (c ++ PathText.spread slash cs).length) (c ++ PathText.spread slash cs).length
        (pre.length + 1) pre.length dir.inner = .ok r ∧ ∀ t, r = some t ↔ Chain dir (c :: cs) t := by
  induction cs generalizing c pre dir with
  | nil =>
    obtain ⟨hne, hplain, hzero⟩ := hclean c List.mem_cons_self
    rw [PathText.spread_nil, List.append_nil]
    refine ⟨_, traverseFrom_last hne hplain hzero pre dir.inner, fun t => ?_⟩
    rw [chain_cons_iff, ← first_iff]
    simp [chain_nil_iff]
  | cons d ds ih =>
    obtain ⟨-, hplain, -⟩ := hclean c List.mem_cons_self
    have hrest : ∀ e ∈ d :: ds, e ≠ [] ∧ slash ∉ e ∧ 0 ∉ e := fun e he => hclean e (List.mem_cons_of_mem c he)
    have hpart := traverseFrom_part hplain (zero_notMem hclean) (hrest d List.mem_cons_self).1 pre dir.inner
    dsimp only at hpart
    have hlen : (c ++ PathText.spread slash (d :: ds)).length =
        c.length + ((d ++ PathText.spread slash ds).length + 1) := by
      rw [List.length_append, PathText.spread_cons, List.length_cons]
    have hend : pre.length + 1 + (c ++ PathText.spread slash (d :: ds)).length =
        pre.length + 1 + c.length + 1 + (d ++ PathText.spread slash ds).length := by omega
    rw [hend, hlen, hpart]
    cases hfind : dir.inner.find? fun f => f.Taken c (d :: ds) with
    | none =>
      refine ⟨none, rfl, fun t => ?_⟩
      simp [chain_cons_iff, first_iff, hfind]
    | some f =>
      obtain ⟨r, hr, hchain⟩ := ih hrest (pre ++ slash :: c) f
      have htext : pre ++ slash :: c ++ slash :: (d ++ PathText.spread slash ds ++ [0]) =
          pre ++ slash :: (c ++ PathText.spread slash (d :: ds) ++ [0]) := by simp
      have hplace : (pre ++ slash :: c).length = pre.length + 1 + c.length := by
        rw [List.length_append, List.length_cons]
        omega
      rw [htext, hplace] at hr
      refine ⟨r, hr, fun t => (hchain t).trans ⟨fun h => .cons (first_iff.mpr hfind) h, fun h => ?_⟩⟩
      obtain ⟨g, hfirst, h⟩ := chain_cons_iff.mp h
      rw [first_iff, hfind] at hfirst
      cases hfirst
      exact h

/-- The walk of the code finds the file at the end of the chain. -/
theorem fakefsTraversePath_spec (root : FakefsFile) (path : CleanPath) :
    ∃ r, fakefsTraversePath root path.text = .ok r ∧ ∀ t, r = some t ↔ Chain root path.components t := by
  obtain ⟨components, hclean⟩ := path
  cases components with
  | nil => exact ⟨some root, rfl, fun t => by rw [chain_nil_iff, Option.some.injEq, eq_comm]⟩
  | cons c cs =>
    have hbytes : CleanPath.bytes ⟨c :: cs, hclean⟩ = slash :: (c ++ PathText.spread slash cs) := by
      rw [CleanPath.bytes, render, if_neg (List.cons_ne_nil c cs), PathText.spread_cons]
    have hzero : 0 ∉ slash :: (c ++ PathText.spread slash cs) := by
      rw [List.mem_cons, not_or]
      exact ⟨by decide, zero_notMem hclean⟩
    have hholds : CString.Holds (CleanPath.text ⟨c :: cs, hclean⟩) (slash :: (c ++ PathText.spread slash cs)) :=
      ⟨hzero, [], by rw [CleanPath.text, hbytes]⟩
    have hlen : 0 < (c ++ PathText.spread slash cs).length := by
      have hpos := List.length_pos_iff.mpr (hclean c List.mem_cons_self).1
      rw [List.length_append]
      omega
    obtain ⟨r, hr, hchain⟩ := traverseFrom_spec hclean [] root
    refine ⟨r, ?_, hchain⟩
    rw [fakefsTraversePath, hholds.strlen_eq, Exec.ok_bind, List.length_cons, if_neg (by omega), Nat.add_sub_cancel,
      CleanPath.text, hbytes]
    rw [List.nil_append, List.length_nil, Nat.zero_add, Nat.add_comm 1] at hr
    exact hr

/-! ### The listing -/

variable {hardlimit : BitVec 32} {a : ℕ} {entries : List Dirent}

/-- The files of a list that are listed. -/
def shown (l : List FakefsFile) : List Dirent := (l.filter fun f => ¬f.wild).map FakefsFile.dirent

/-- The bytes that entries take. -/
def total (l : List Dirent) : ℕ := (l.map Dirent.reclen).sum

@[simp] theorem total_append (l l' : List Dirent) : total (l ++ l') = total l + total l' := by simp [total]

theorem shown_append (l l' : List FakefsFile) : shown (l ++ l') = shown l ++ shown l' := by simp [shown]

theorem shown_cons_of_wild (hf : f.wild) (l : List FakefsFile) : shown (f :: l) = shown l := by simp [shown, hf]

theorem shown_cons_of_not (hf : ¬f.wild) (l : List FakefsFile) : shown (f :: l) = f.dirent :: shown l := by
  simp [shown, hf]

theorem total_eq_zero_iff {l : List Dirent} : total l = 0 ↔ l = [] := by
  cases l with
  | nil => simp [total]
  | cons e l => simp [total, Dirent.reclen]

theorem reclen_lt (f : FakefsFile) : f.dirent.reclen < 2 ^ 29 + 24 := by
  have hlength := f.filename.length_lt
  unfold Dirent.reclen FakefsFile.dirent
  dsimp only
  omega

/-- The comparison of the code, for names of that length. -/
theorem dentsAdd_eq (f : FakefsFile) (ha : a < 2 ^ 31 + 2 ^ 30) :
    dentsAdd a hardlimit f.dirent =
      if NoSpace hardlimit.toNat a f.dirent.reclen then if a ≠ 0 then .full else .noSpace else .success := by
  have hsum : a + f.dirent.reclen + 2 < 2 ^ 32 := by
    have := reclen_lt f
    omega
  have hzero : wrapInt a ≠ 0 ↔ a ≠ 0 := by
    unfold wrapInt
    rw [Int.bmod_def]
    omega
  simp only [dentsAdd, noSpace_iff hardlimit.isLt hsum, hzero]

/-- What a call does with the entries ahead. -/
structure Listed (hardlimit : BitVec 32) (l : List FakefsFile) (a : ℕ) (entries : List Dirent) (r : Listing)
    (before after : List FakefsFile) : Prop where
  split : l = before ++ after
  tmp1 : r.tmp1 = DirPlace.ofList after
  allocatedlimit : r.allocatedlimit = a + total (shown before)
  entries : r.entries = entries ++ shown before
  einval : r.einval → r.allocatedlimit = 0
  stopped : after ≠ [] → ∃ f ∈ after, ¬f.wild ∧ NoSpace hardlimit.toNat r.allocatedlimit f.dirent.reclen
  finished : after = [] → ¬r.einval

theorem listFrom_listed (hardlimit : BitVec 32) (l : List FakefsFile) (ha : a < 2 ^ 31 + 2 ^ 30)
    (entries : List Dirent) :
    ∃ before after, Listed hardlimit l a entries (listFrom hardlimit l a entries) before after := by
  induction l generalizing a entries with
  | nil => exact ⟨[], [], ⟨rfl, rfl, rfl, (List.append_nil _).symm, nofun, nofun, nofun⟩⟩
  | cons f l ih =>
    rw [listFrom]
    by_cases hwild : f.wild
    · obtain ⟨before, after, h⟩ := ih ha entries
      rw [if_pos hwild]
      have hsplit : f :: l = f :: before ++ after := by rw [h.split, List.cons_append]
      refine ⟨f :: before, after, ⟨hsplit, h.tmp1, ?_, ?_, h.einval, h.stopped, h.finished⟩⟩
      · rw [shown_cons_of_wild hwild, h.allocatedlimit]
      · rw [shown_cons_of_wild hwild, h.entries]
    · rw [if_neg hwild, dentsAdd_eq f ha]
      by_cases hspace : NoSpace hardlimit.toNat a f.dirent.reclen
      · have hstopped : ∃ g ∈ f :: l, ¬g.wild ∧ NoSpace hardlimit.toNat a g.dirent.reclen :=
          ⟨f, List.mem_cons_self, hwild, hspace⟩
        rw [if_pos hspace]
        by_cases hzero : a ≠ 0
        · rw [if_pos hzero, if_neg (by decide)]
          exact ⟨[], f :: l, ⟨rfl, rfl, rfl, (List.append_nil _).symm, nofun, fun _ => hstopped, nofun⟩⟩
        · rw [if_neg hzero, if_neg (by decide)]
          refine ⟨[], f :: l, ⟨rfl, rfl, rfl, (List.append_nil _).symm, ?_, fun _ => hstopped, nofun⟩⟩
          exact fun _ => not_not.mp hzero
      · have hnext : a + f.dirent.reclen < 2 ^ 31 + 2 ^ 30 := by
          have := reclen_lt f
          unfold NoSpace at hspace
          omega
        obtain ⟨before, after, h⟩ := ih hnext (entries ++ [f.dirent])
        rw [if_neg hspace, if_pos rfl]
        have hsplit : f :: l = f :: before ++ after := by rw [h.split, List.cons_append]
        refine ⟨f :: before, after, ⟨hsplit, h.tmp1, ?_, ?_, h.einval, h.stopped, h.finished⟩⟩
        · rw [shown_cons_of_not hwild, h.allocatedlimit, total, total, List.map_cons, List.sum_cons, Nat.add_assoc]
        · rw [shown_cons_of_not hwild, h.entries, List.append_assoc, List.singleton_append]

/-- A buffer has room for each file of a list that is listed. -/
def Fits (hardlimit : BitVec 32) (l : List FakefsFile) : Prop :=
  ∀ f ∈ l, ¬f.wild → f.dirent.reclen + 2 ≤ hardlimit.toNat

/-- The files from the cursor of a descriptor on, in a directory. -/
def filesAhead (dir : FakefsFile) : DirPlace → List FakefsFile
  | .null => dir.inner
  | tmp1 => tmp1.ahead

theorem ahead_ofList (l : List FakefsFile) : (DirPlace.ofList l).ahead = l := by cases l <;> rfl

theorem filesAhead_ofList (dir : FakefsFile) (l : List FakefsFile) : filesAhead dir (DirPlace.ofList l) = l := by
  cases l <;> rfl

theorem fakefsGetDents64_eq {path : CleanPath} (hchain : Chain root path.components dir) (hardlimit : BitVec 32)
    (tmp1 : DirPlace) :
    fakefsGetDents64 root hardlimit ⟨path.text, tmp1⟩ =
      let r := listFrom hardlimit (filesAhead dir tmp1) 0 []
      .ok (⟨path.text, r.tmp1⟩, ⟨if r.einval then .einval else .count r.allocatedlimit, r.entries⟩) := by
  obtain ⟨r, hr, hfound⟩ := fakefsTraversePath_spec root path
  rw [(hfound dir).mpr hchain] at hr
  rw [fakefsGetDents64, hr, Exec.ok_bind]
  cases tmp1 with
  | null =>
    dsimp only
    rw [Exec.ok_bind, ahead_ofList]
    rfl
  | stop => rfl
  | entry f l => rfl

/-- A call takes what it gives off what is left. -/
theorem takes {path : CleanPath} (hchain : Chain root path.components dir) {fd : OpenDir}
    (hname : fd.dirname = path.text) (hbehind : filesAhead dir fd.tmp1 <:+ dir.inner)
    (hfits : Fits hardlimit dir.inner) :
    Cursor.Takes (fakefsGetDents64 root) Reply.entries (fun r => r.answer = .count 0)
      (fun fd => shown (filesAhead dir fd.tmp1))
      (fun fd => fd.dirname = path.text ∧ filesAhead dir fd.tmp1 <:+ dir.inner) hardlimit fd := by
  obtain ⟨dirname, tmp1⟩ := fd
  obtain rfl : dirname = path.text := hname
  obtain ⟨before, after, h⟩ := listFrom_listed hardlimit (filesAhead dir tmp1) (by decide : 0 < 2 ^ 31 + 2 ^ 30) []
  have hcall := fakefsGetDents64_eq hchain hardlimit tmp1
  dsimp only at hcall
  generalize listFrom hardlimit (filesAhead dir tmp1) 0 [] = r at h hcall
  have hentries : r.entries = shown before := h.entries
  have hcount : r.allocatedlimit = total (shown before) := by rw [h.allocatedlimit, Nat.zero_add]
  have hafter : after <:+ dir.inner := (h.split ▸ List.suffix_append before after).trans hbehind
  have hdry : shown before = [] → after = [] := by
    intro hnil
    by_contra hne
    obtain ⟨f, hf, hwild, hspace⟩ := h.stopped hne
    have hroom := hfits f (hafter.subset hf) hwild
    rw [hcount, total_eq_zero_iff.mpr hnil] at hspace
    unfold NoSpace at hspace
    omega
  refine ⟨_, _, hcall, ⟨rfl, ?_⟩, ?_, ?_, ?_⟩
  · rw [h.tmp1, filesAhead_ofList]
    exact hafter
  · rw [h.tmp1, filesAhead_ofList, hentries, ← shown_append, ← h.split]
  · constructor
    · intro hanswer
      by_cases hval : r.einval
      · rw [hentries, ← total_eq_zero_iff, ← hcount]
        exact h.einval hval
      · rw [if_neg hval] at hanswer
        rw [hentries, ← total_eq_zero_iff, ← hcount]
        exact Answer.count.inj hanswer
    · intro hnil
      rw [hentries] at hnil
      rw [if_neg (h.finished (hdry hnil)), hcount, total_eq_zero_iff.mpr hnil]
  · intro hnil
    have hbefore : shown before = [] := hentries ▸ hnil
    change shown (filesAhead dir tmp1) = []
    rw [h.split, shown_append, hbefore, hdry hbefore]
    rfl

/-- A walk along a clean path reads inside the path and the names, and finds the file at the
end of the chain of first entries. Calls with buffers that have room for each entry list the
files of a directory that do not begin with a star, each once. -/
theorem fakefs_walk_and_listing (root : FakefsFile) (path : CleanPath) :
    (∃ r, fakefsTraversePath root path.text = .ok r ∧ ∀ t, r = some t ↔ Chain root path.components t) ∧
      (∀ (f : FakefsFile) (c : PathName) (cs : List PathName), slash ∉ f.filename.bytes →
        (f.Taken c cs ↔ f.wild ∨ f.filename.bytes = c)) ∧
      ∀ dir, Chain root path.components dir → ∀ limits : ℕ → BitVec 32, (∀ n, Fits (limits n) dir.inner) →
        Cursor.Lists (fakefsGetDents64 root) Reply.entries (fun r => r.answer = .count 0) limits ⟨path.text, .null⟩
          (shown dir.inner) := by
  refine ⟨fakefsTraversePath_spec root path, fun f c cs => taken_iff_of_plain, fun dir hchain limits hfits => ?_⟩
  have htakes (n : ℕ) (fd : OpenDir) (hinv : fd.dirname = path.text ∧ filesAhead dir fd.tmp1 <:+ dir.inner) :=
    takes hchain hinv.1 hinv.2 (hfits n)
  exact Cursor.lists_of_takes ⟨rfl, List.suffix_rfl⟩ fun n fd _ hinv _ => htakes n fd hinv

/-! ### A wildcard in front of a name -/

/-- A chain of files of which each has the name of its part, or begins with a star and comes
before every file with the name and every other file with a star. -/
inductive NamedChain : FakefsFile → List PathName → FakefsFile → Prop
  | nil (dir : FakefsFile) : NamedChain dir [] dir
  | cons {dir f t : FakefsFile} {c : PathName} {cs : List PathName}
      (hentry : (f ∈ dir.inner ∧ f.filename.bytes = c) ∨
        (f.wild ∧ First (fun g => g.wild ∨ g.filename.bytes = c) dir.inner f))
      (hrest : NamedChain f cs t) : NamedChain dir (c :: cs) t

def fileB : FakefsFile := .mk ⟨[98], by decide, by decide⟩ 3 []

def fileA : FakefsFile := .mk ⟨[97], by decide, by decide⟩ 2 [fileB]

/-- The directory has `*` and then `a`, and `a` has `b`. -/
def starred : FakefsFile := .mk ⟨[slash], by decide, by decide⟩ 0 [.mk ⟨[star], by decide, by decide⟩ 1 [], fileA]

/-- `/a/b`. -/
def pathAB : CleanPath := ⟨[[97], [98]], by decide⟩

theorem wildcard_hides_name : ¬∀ (root : FakefsFile) (path : CleanPath),
    (∃ t, fakefsTraversePath root path.text = .ok (some t)) ↔ ∃ t, NamedChain root path.components t := by
  intro h
  have hchain : NamedChain starred pathAB.components fileB :=
    .cons (.inl ⟨List.mem_cons_of_mem _ List.mem_cons_self, rfl⟩) (.cons (.inl ⟨List.mem_cons_self, rfl⟩) (.nil _))
  obtain ⟨t, ht⟩ := (h starred pathAB).mpr ⟨_, hchain⟩
  have hnone : fakefsTraversePath starred pathAB.text = .ok none := rfl
  rw [hnone] at ht
  cases ht

end DualFuse.Filesystems.VfsPath.Fakefs
