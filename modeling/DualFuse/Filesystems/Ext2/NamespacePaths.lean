import DualFuse.Filesystems.Ext2.NamespaceTree

/-! Paths in a consistent file system: what a walk along a path returns is named by a
directory, and the walk along a path is the walk to its parent and a search there. -/

namespace DualFuse.Filesystems

open Library

/-- A path as `fsSanitize` makes it: no part is empty, has a slash or is a dot name. -/
structure SanitizedPath where
  components : List Filename
  clean : ∀ c ∈ components, c ≠ [] ∧ slash ∉ c ∧ c ≠ dot ∧ c ≠ dotdot

namespace SanitizedPath

def bytes (path : SanitizedPath) : Path :=
  if path.components = [] then [slash] else path.components.flatMap fun c => slash :: c

/-- The last part. -/
def name (path : SanitizedPath) : Filename := path.components.getLast?.getD []

end SanitizedPath

/-- A path that is a parent path and a name behind its last slash. -/
structure Splits (path pre : Path) (name : Filename) : Prop where
  eq : path = pre ++ slash :: name
  nonempty : name ≠ []
  plain : slash ∉ name
  undotted : name ≠ dot ∧ name ≠ dotdot
  parent : pre = [] ∨ ∃ u c, pre = slash :: (u ++ [c]) ∧ c ≠ slash

theorem SanitizedPath.splits (path : SanitizedPath) :
    path.bytes = [slash] ∨ ∃ pre, Splits path.bytes pre path.name := by
  obtain ⟨cs, hclean⟩ := path
  rcases cs.eq_nil_or_concat' with rfl | ⟨cs, c, rfl⟩
  · exact Or.inl rfl
  · obtain ⟨hc, hplain, hdot, hdotdot⟩ := hclean c (by simp)
    have hname : SanitizedPath.name ⟨cs ++ [c], hclean⟩ = c := by simp [SanitizedPath.name]
    refine Or.inr ⟨cs.flatMap fun c => slash :: c, ?_⟩
    rw [hname]
    refine ⟨by simp [SanitizedPath.bytes], hc, hplain, ⟨hdot, hdotdot⟩, ?_⟩
    rcases cs.eq_nil_or_concat' with rfl | ⟨cs, k, rfl⟩
    · exact Or.inl rfl
    · -- the parent path ends with the last byte of its last part
      obtain ⟨hk, hkplain, -, -⟩ := hclean k (by simp)
      obtain ⟨k', x, rfl⟩ := k.eq_nil_or_concat'.resolve_left hk
      have hx : x ≠ slash := fun hc => hkplain (by simp [hc])
      cases cs with
      | nil => exact Or.inr ⟨k', x, by simp, hx⟩
      | cons j js => exact Or.inr ⟨j ++ (js.flatMap (fun c => slash :: c) ++ slash :: k'), x, by simp, hx⟩

theorem lastSlash_of_plain {name : Filename} (h : slash ∉ name) : lastSlash name = none := by
  induction name with
  | nil => rfl
  | cons c name ih =>
    rw [List.mem_cons, not_or] at h
    rw [lastSlash, ih h.2]
    exact if_neg (Ne.symm h.1)

theorem lastSlash_append (pre : Path) {name : Filename} (h : slash ∉ name) :
    lastSlash (pre ++ slash :: name) = some pre.length := by
  induction pre with
  | nil =>
    rw [List.nil_append, lastSlash, lastSlash_of_plain h]
    exact if_pos rfl
  | cons c pre ih =>
    rw [List.cons_append, lastSlash, ih, List.length_cons]

namespace Splits

variable {path pre : Path} {name : Filename}

theorem lastSlash_eq (h : Splits path pre name) : lastSlash path = some pre.length := by
  rw [h.eq]
  exact lastSlash_append pre h.plain

theorem take_eq (h : Splits path pre name) : path.take pre.length = pre := by
  rw [h.eq, List.take_left]

theorem drop_eq (h : Splits path pre name) : path.drop (pre.length + 1) = name := by
  rw [h.eq, ← List.drop_drop, List.drop_left, List.drop_one, List.tail_cons]

end Splits

namespace Ext2Names

/-- The numbers fit their fields and every directory is a row of records. -/
structure Formed (v : Ext2Names) : Prop where
  size : BlockSize v.blockSize
  numbered : v.Numbered
  tiled : ∀ d, v.IsDir d → ∃ rows, Tiled v.blockSize (v.directory d) rows
  field : ∀ n, (v.inodes n).hardLinks < 2 ^ 16

/-- A file system whose bitmaps, directories and links go together. -/
structure Consistent (v : Ext2Names) : Prop extends v.Formed where
  valid : v.tree.Valid rootInode dot dotdot v.Ordinary

variable {v : Ext2Names} {d n : ℕ} {name : Filename} {path pre : Path}

theorem Consistent.listed (h : v.Consistent) (hd : v.IsDir d) : v.Listed d :=
  ⟨hd, h.tiled d hd, nodup_live h.valid.nodup hd⟩

theorem Consistent.root (h : v.Consistent) : v.IsDir rootInode := h.valid.rooted.1

/-- A search in a directory. -/
theorem Consistent.traverse (h : v.Consistent) (hd : v.IsDir d) (name : Filename) :
    v.tree.Absent d name ∧ v.ext2Traverse d name = .ok 0 ∨
      ∃ n, ⟨d, name, n⟩ ∈ v.tree.links ∧ n ≠ 0 ∧ v.ext2Traverse d name = .ok n := by
  have hlisted := h.listed hd
  obtain ⟨rows, htiled⟩ := hlisted.tiled
  rcases ext2Traverse_live htiled hlisted.nodup with ⟨hnot, heq⟩ | ⟨e, he, heq⟩
  · exact Or.inl ⟨(absent_iff hd).mpr hnot, heq⟩
  · exact Or.inr ⟨e.1, mem_links.mpr ⟨hd, e.2, he⟩, inode_ne_zero_of_live he, heq⟩

theorem Consistent.mem_of_traverse (h : v.Consistent) (hd : v.IsDir d) (heq : v.ext2Traverse d name = .ok n)
    (hn : n ≠ 0) : ⟨d, name, n⟩ ∈ v.tree.links := by
  rcases h.traverse hd name with ⟨-, hzero⟩ | ⟨m, hm, -, hfound⟩
  · rw [hzero] at heq
    cases heq
    exact absurd rfl hn
  · rw [hfound] at heq
    cases heq
    exact hm

theorem Consistent.absent_of_traverse (h : v.Consistent) (hd : v.IsDir d) (heq : v.ext2Traverse d name = .ok 0) :
    v.tree.Absent d name := by
  rcases h.traverse hd name with ⟨habsent, -⟩ | ⟨m, -, hm, hfound⟩
  · exact habsent
  · rw [hfound] at heq
    cases heq
    exact absurd rfl hm

theorem arrive_meets (follow last : Bool) (n : ℕ) :
    Exec.Meets (· = .assertion) (fun r => r = some 0 ∨ r = some n ∧ last = true ∨
      r = none ∧ n ≠ 0 ∧ (v.inodes n).isDirectory = true) (v.arrive follow last n) := by
  rw [arrive]
  split_ifs with hzero hsym hlong hlast hdir
  · exact Or.inl rfl
  · exact rfl
  · exact Or.inl rfl
  · exact Or.inr (Or.inl ⟨rfl, hlast⟩)
  · exact Or.inl rfl
  · exact Or.inr (Or.inr ⟨rfl, hzero, by simpa using hdir⟩)

theorem arrive_last (n : ℕ) : v.arrive false true n = .ok (some n) := by
  unfold arrive
  by_cases hzero : n = 0
  · rw [if_pos hzero, hzero]
  · rw [if_neg hzero, if_neg (by simp), if_pos rfl]

/-- A walk that finds something and is not at its end goes on at a directory. -/
theorem arrive_on {follow : Bool} {m : ℕ} {rest : Exec ℕ}
    (heq : (v.arrive follow false m >>= fun r => match r with | some ret => .ok ret | none => rest) = .ok n)
    (hn : n ≠ 0) : v.arrive follow false m = .ok none ∧ m ≠ 0 ∧ (v.inodes m).isDirectory = true ∧ rest = .ok n := by
  obtain ⟨r, hr, heq⟩ := Exec.bind_ok_iff.mp heq
  have hmeets := arrive_meets (v := v) follow false m
  rw [hr] at hmeets
  rcases hmeets with rfl | ⟨-, hlast⟩ | ⟨rfl, hm, hdir⟩
  · cases heq
    exact absurd rfl hn
  · cases hlast
  · exact ⟨hr, hm, hdir, heq⟩

/-- The walk ends at a node that some directory names. -/
theorem Consistent.traverseFrom_meets (h : v.Consistent) (follow : Bool) (hd : v.IsDir d) (component : Filename)
    (path : Path) :
    Exec.Meets (· = .assertion) (fun n => n ≠ 0 → v.Used n ∧ n ∈ v.Ordinary) (v.traverseFrom follow d component path) := by
  induction path generalizing d component with
  | nil => exact fun hn => absurd rfl hn
  | cons c path ih =>
    rw [traverseFrom]
    by_cases hend : c = slash ∨ path = []
    · rw [if_pos hend]
      generalize (if path = [] then component ++ [c] else component) = part
      have hfound : ∃ n, v.ext2Traverse d part = .ok n ∧ (n ≠ 0 → v.Used n ∧ n ∈ v.Ordinary) := by
        rcases h.traverse hd part with ⟨-, heq⟩ | ⟨n, hmem, -, heq⟩
        · exact ⟨0, heq, fun hn => absurd rfl hn⟩
        · exact ⟨n, heq, fun _ => h.valid.refers _ hmem⟩
      obtain ⟨n, heq, hn⟩ := hfound
      rw [heq, Exec.ok_bind]
      refine (arrive_meets follow path.isEmpty n).bind ?_
      rintro r (rfl | ⟨rfl, -⟩ | ⟨rfl, hne, hdir⟩)
      · exact fun hn => absurd rfl hn
      · exact hn
      · exact ih ⟨(hn hne).1, hdir⟩ []
    · rw [if_neg hend]
      exact ih hd _

theorem Consistent.traversePath_meets (h : v.Consistent) (path : Path) (follow : Bool) :
    Exec.Meets (· = .assertion) (fun n => n ≠ 0 → v.Used n ∧ n ∈ v.Ordinary) (v.ext2TraversePath path follow) := by
  rw [ext2TraversePath]
  split_ifs
  · exact fun _ => ⟨h.root.1, Or.inl rfl⟩
  · exact h.traverseFrom_meets follow h.root [] path.tail

/-- The walk along the last part of a path is a search. -/
theorem traverseFrom_plain (hname : name ≠ []) (hplain : slash ∉ name) (component : Filename) :
    v.traverseFrom false d component name = v.ext2Traverse d (component ++ name) := by
  induction name generalizing component with
  | nil => exact absurd rfl hname
  | cons c name ih =>
    rw [List.mem_cons, not_or] at hplain
    rw [traverseFrom]
    cases name with
    | nil =>
      rw [if_pos (Or.inr rfl), if_pos rfl]
      conv_rhs => rw [← Exec.bind_ok (v.ext2Traverse d (component ++ [c]))]
      refine bind_congr fun n => ?_
      rw [List.isEmpty_nil, arrive_last, Exec.ok_bind]
    | cons c' name =>
      rw [if_neg (by simp [Ne.symm hplain.1]), ih (by simp) hplain.2, List.append_assoc]
      rfl

/-- The walk along a path that finds something is the walk to the parent, which is a
directory, and a search there. -/
theorem traverseFrom_split (hname : name ≠ []) (hplain : slash ∉ name) {c : BitVec 8} (hc : c ≠ slash) {u : Path}
    {component : Filename} (heq : v.traverseFrom false d component (u ++ c :: slash :: name) = .ok n) (hn : n ≠ 0) :
    ∃ p, v.traverseFrom false d component (u ++ [c]) = .ok p ∧ p ≠ 0 ∧ (v.inodes p).isDirectory = true ∧
      v.ext2Traverse p name = .ok n := by
  induction u generalizing d component with
  | nil =>
    rw [List.nil_append, traverseFrom, if_neg (by simp [hc]), traverseFrom, if_pos (Or.inl rfl), if_neg hname,
      Exec.bind_ok_iff] at heq
    obtain ⟨p, hp, heq⟩ := heq
    rw [List.isEmpty_eq_false_iff.mpr hname] at heq
    obtain ⟨-, hp0, hdir, heq⟩ := arrive_on heq hn
    rw [traverseFrom_plain hname hplain, List.nil_append] at heq
    refine ⟨p, ?_, hp0, hdir, heq⟩
    rw [List.nil_append, traverseFrom_plain (by simp) (by simpa using hc.symm)]
    exact hp
  | cons x u ih =>
    rw [List.cons_append, traverseFrom] at heq ⊢
    by_cases hx : x = slash
    · have hne : u ++ c :: slash :: name ≠ [] := by simp
      have hne' : u ++ [c] ≠ [] := by simp
      rw [if_pos (Or.inl hx), if_neg hne, Exec.bind_ok_iff] at heq
      obtain ⟨q, hq, heq⟩ := heq
      rw [List.isEmpty_eq_false_iff.mpr hne] at heq
      obtain ⟨harrive, -, -, heq⟩ := arrive_on heq hn
      rw [if_pos (Or.inl hx), if_neg hne', hq, Exec.ok_bind, List.isEmpty_eq_false_iff.mpr hne', harrive, Exec.ok_bind]
      exact ih heq
    · rw [if_neg (by simp [hx])] at heq ⊢
      exact ih heq

theorem Consistent.traversePath_split (h : v.Consistent) (hsplit : Splits path pre name)
    (heq : v.ext2TraversePath path false = .ok n) (hn : n ≠ 0) :
    ∃ p, v.ext2TraversePath (parentPath path) false = .ok p ∧ v.IsDir p ∧ ⟨p, name, n⟩ ∈ v.tree.links := by
  have hlast := hsplit.lastSlash_eq
  have htake := hsplit.take_eq
  unfold parentPath
  rw [hlast]
  rcases hsplit.parent with rfl | ⟨u, c, rfl, hc⟩
  · have hlen : path.length ≠ 1 := by
      rw [hsplit.eq]
      simpa using hsplit.nonempty
    rw [ext2TraversePath, if_neg hlen, hsplit.eq, List.nil_append, List.tail_cons,
      traverseFrom_plain hsplit.nonempty hsplit.plain, List.nil_append] at heq
    exact ⟨rootInode, rfl, h.root, h.mem_of_traverse h.root heq hn⟩
  · have hlen : path.length ≠ 1 := by
      rw [hsplit.eq]
      simp
    rw [ext2TraversePath, if_neg hlen, hsplit.eq, List.cons_append, List.tail_cons, List.append_assoc] at heq
    obtain ⟨p, hp, hp0, hdir, hfound⟩ := traverseFrom_split hsplit.nonempty hsplit.plain hc heq hn
    have hpath : v.ext2TraversePath (slash :: (u ++ [c])) false = .ok p := by
      rw [ext2TraversePath, if_neg (by simp), List.tail_cons]
      exact hp
    have hused := h.traversePath_meets (slash :: (u ++ [c])) false
    rw [hpath] at hused
    have hpdir : v.IsDir p := ⟨(hused hp0).1, hdir⟩
    refine ⟨p, ?_, hpdir, h.mem_of_traverse hpdir hfound hn⟩
    rw [List.length_cons] at htake
    rw [List.length_cons]
    simp only
    rw [htake]
    exact hpath

end Ext2Names

end DualFuse.Filesystems
