import DualFuse.Filesystems.SanitizeBuffer

/-! When `fsSanitize` stays in its block. The buffer ends with what the passes make of the
string on lists; the first pass fits unless the name is empty behind a slash, and the
second fits as long as `..` is only found at the start. -/

namespace DualFuse.Filesystems.VfsPath

open Library PathText

namespace SanitizeBuffer

/-! ### In components -/

section Components
variable {mem : Bytes} {names : List PathName} {size n : ℕ}

/-- Components that the first pass leaves. -/
def Plain (names : List PathName) : Prop := ∀ c ∈ names, slash ∉ c ∧ dropped c = false

theorem notDotDot_inside {l c r : PathName} (hc : slash ∉ c) {k : ℕ} (hk : k < c.length) :
    ¬isDotDot (l ++ (c ++ r)) (l.length + k) := by
  rintro ⟨hslash, -⟩
  rw [getElem?_append_add, List.getElem?_append_left hk] at hslash
  exact hc (List.mem_of_getElem? hslash)

/-- `/..` stands nowhere in components exactly when none of them is `..`. -/
theorem forall_notDotDot_iff (hnames : Plain names) (l : PathName) :
    (∀ j, l.length ≤ j → ¬isDotDot (l ++ spread slash names) j) ↔ dotdot ∉ names := by
  induction names generalizing l with
  | nil =>
    refine iff_of_true (fun j hj hup => ?_) List.not_mem_nil
    have := isDotDot_length hup
    rw [spread_nil, List.append_nil] at this
    omega
  | cons c names ih =>
    obtain ⟨hc, hkept⟩ := hnames c List.mem_cons_self
    have htext : l ++ spread slash (c :: names) = l ++ slash :: c ++ spread slash names := by simp
    have hup : isDotDot (l ++ spread slash (c :: names)) l.length ↔ c = dotdot := isDotDot_name_iff hc hkept
    have hrest := ih (fun d hd => hnames d (List.mem_cons_of_mem c hd)) (l ++ slash :: c)
    rw [← htext, List.length_append, List.length_cons] at hrest
    rw [List.mem_cons, not_or, ← hrest]
    constructor
    · intro hnone
      refine ⟨fun heq => hnone _ le_rfl (hup.mpr heq.symm), fun j hj => hnone j (by omega)⟩
    · rintro ⟨hne, hnone⟩ j hj
      rcases hj.eq_or_lt with rfl | hlt
      · exact fun hdd => hne (hup.mp hdd).symm
      · by_cases hin : j < l.length + (c.length + 1)
        · obtain ⟨k, rfl⟩ : ∃ k, j = (l ++ [slash]).length + k := ⟨j - l.length - 1, by simp; omega⟩
          have hinside := notDotDot_inside (l := l ++ [slash]) (r := spread slash names) hc (k := k)
            (by rw [List.length_append, List.length_singleton] at hin; omega)
          simpa using hinside
        · exact hnone j (by omega)

/-- From the start on, components after slashes: `..` may only stand before all others. -/
theorem dotDotLoop_names (h : Holds mem (spread slash names)) (hs : 0 ∉ spread slash names)
    (hsize : (spread slash names).length < size) (hn : (spread slash names).length ≤ n) (hnames : Plain names) :
    (dotDotLoop (n + 1) mem (spread slash names).length 0).Within (BufferAccess.Inside size) ↔
      names.Pairwise fun c d => d = dotdot → c = dotdot := by
  induction names generalizing n mem with
  | nil =>
    rw [dotDotLoop_end (s := spread slash []) (lt_irrefl 0)]
    exact iff_of_true (Traced.within_pure _) .nil
  | cons c names ih =>
    obtain ⟨hc, hkept⟩ := hnames c List.mem_cons_self
    have hrest : Plain names := fun d hd => hnames d (List.mem_cons_of_mem c hd)
    have hup : isDotDot (spread slash (c :: names)) 0 ↔ c = dotdot := isDotDot_name_iff (l := []) hc hkept
    have hlength : (spread slash (c :: names)).length = c.length + 1 + (spread slash names).length := by
      simp only [spread_cons, List.length_cons, List.length_append]
      omega
    obtain ⟨n, rfl⟩ : ∃ m, n = m + 1 := ⟨n - 1, by omega⟩
    rw [List.pairwise_cons]
    by_cases heq : c = dotdot
    · obtain ⟨mem', hholds, -, hwithin⟩ := dotDotLoop_up h hs hsize (hup.mpr heq) (n + 1)
      have hwithout : withoutDotDot (spread slash (c :: names)) 0 = spread slash names := by
        rw [heq]
        rfl
      rw [hwithout] at hholds hwithin
      have hzero : 0 ∉ spread slash names := hwithout ▸ zero_notMem_withoutDotDot hs
      have hnext := ih hholds hzero (by omega) (n := n) (by omega) hrest
      rw [hwithin, and_iff_right rfl, indexToCopyInto, hnext]
      exact (and_iff_right fun d _ _ => heq).symm
    · have hstart := dotDotLoop_next h hs hsize (by omega) (fun hdd => heq (hup.mp hdd)) (n + 1)
      have hloop := dotDotLoop_within_iff h hs hsize (i := 1) (n := n) one_pos (by omega)
      have hnone := forall_notDotDot_iff hrest (slash :: c)
      refine hstart.2.trans (hloop.trans ?_)
      have hinside : (∀ j, 1 ≤ j → ¬isDotDot (spread slash (c :: names)) j) ↔ dotdot ∉ names := by
        rw [← hnone, List.length_cons]
        refine ⟨fun hall j hj => hall j (by omega), fun hall j hj => ?_⟩
        by_cases hin : j < c.length + 1
        · obtain ⟨k, rfl⟩ : ∃ k, j = [slash].length + k := ⟨j - 1, by simp; omega⟩
          rw [List.length_singleton] at hin
          exact notDotDot_inside (l := [slash]) (r := spread slash names) hc (k := k) (by omega)
        · exact hall j (by omega)
      rw [hinside]
      constructor
      · intro hno
        refine ⟨fun d hd hdd => absurd (hdd ▸ hd) hno, List.pairwise_of_forall_mem_list fun a _ b hb hdd => ?_⟩
        exact absurd (hdd ▸ hb) hno
      · rintro ⟨hfirst, -⟩ hmem
        exact heq (hfirst dotdot hmem rfl)

/-- A first component that no slash comes before: `..` may not stand after it. -/
theorem dotDotLoop_word {c : PathName} (h : Holds mem (c ++ spread slash names)) (hs : 0 ∉ c ++ spread slash names)
    (hsize : (c ++ spread slash names).length < size) (hn : (c ++ spread slash names).length ≤ n) (hc : slash ∉ c)
    (hne : c ≠ []) (hnames : Plain names) :
    (dotDotLoop (n + 1) mem (c ++ spread slash names).length 0).Within (BufferAccess.Inside size) ↔ dotdot ∉ names := by
  have hpos := List.length_pos_iff.mpr hne
  have hinside : ∀ j < c.length, ¬isDotDot (c ++ spread slash names) j := by
    intro j hj
    have hplace := notDotDot_inside (l := []) (r := spread slash names) hc hj
    rwa [List.length_nil, Nat.zero_add, List.nil_append] at hplace
  rw [List.length_append] at hn
  obtain ⟨n, rfl⟩ : ∃ m, n = m + 1 := ⟨n - 1, by omega⟩
  have hstart := dotDotLoop_next h hs hsize (by rw [List.length_append]; omega) (hinside 0 hpos) (n + 1)
  have hloop := dotDotLoop_within_iff h hs hsize (i := 1) (n := n) one_pos (by rw [List.length_append]; omega)
  refine hstart.2.trans (hloop.trans ?_)
  rw [← forall_notDotDot_iff hnames c]
  refine ⟨fun hall j hj => hall j (by omega), fun hall j _ => ?_⟩
  rcases lt_or_ge j c.length with hlt | hge
  · exact hinside j hlt
  · exact hall j hge

end Components

/-! ### The whole function -/

section Whole
variable {mem : Bytes} {s cwd filename : PathName} {size : ℕ}

theorem finish_within_iff (h : Holds mem s) (hs : 0 ∉ s) (hsize : s.length < size) (htwo : 1 < size) {rounds : ℕ}
    (hrounds : s.length < rounds) :
    (finish rounds mem).Within (BufferAccess.Inside size) ↔
      (dotDotLoop (s.length + 1) mem s.length 0).Within (BufferAccess.Inside size) := by
  have hlen := strlenFrom_yields h hs hsize (Nat.zero_le _) (n := rounds) (by omega)
  refine hlen.within_bind_iff.trans ?_
  rw [Traced.within_bind_iff]
  refine and_iff_left fun a _ => ?_
  dsimp only
  split_ifs
  · exact ((writeByte_yields (by omega) slash).bind (writeByte_yields htwo 0)).2
  · exact Traced.within_pure _

theorem finish_result (h : Holds mem s) (hs : 0 ∉ s) {rounds : ℕ} (hrounds : s.length < rounds) :
    ∃ mem', (finish rounds mem).result = .ok mem' ∧
      Holds mem' (if removeDotDot s.length s 0 = [] then root else removeDotDot s.length s 0) := by
  have hlen := strlenFrom_yields h hs (Nat.lt_succ_self _) (Nat.zero_le _) (n := rounds) (by omega)
  obtain ⟨mem', hloop, hholds⟩ := dotDotLoop_result h hs (i := 0) (n := s.length) (Nat.sub_le _ _)
  unfold finish
  rw [Traced.result_bind, hlen.1, Exec.ok_bind, Traced.result_bind, hloop, Exec.ok_bind]
  dsimp only
  by_cases hempty : removeDotDot s.length s 0 = []
  · rw [if_pos hempty, hempty, List.length_nil, if_pos rfl]
    refine ⟨_, rfl, ?_⟩
    have hbytes : Function.update (Function.update mem' 0 slash) 1 0 = writeList mem' 0 (root ++ [0]) := by
      change _ = writeList mem' 0 [slash, 0]
      rw [← writeList_cons, ← writeList_cons, writeList_nil]
    rw [hbytes]
    exact holds_writeList mem' root
  · rw [if_neg hempty, if_neg fun hzero => hempty (List.length_eq_zero_iff.mp hzero)]
    exact ⟨mem', rfl, hholds⟩

theorem reads_of_holds (h : Holds mem s) : Reads none mem 0 s := by
  intro k hk
  rw [Nat.zero_add]
  exact h k hk

theorem reads_other (s : PathName) (mem : Bytes) : Reads (some s) mem 0 s := by
  intro k _
  rw [Nat.zero_add]
  rfl

theorem copyIn_yields {l : PathName} (h : l.length ≤ size) :
    (copyIn mem l).Yields (BufferAccess.Inside size) (writeList mem 0 l) := by
  refine ⟨rfl, fun e he => ?_⟩
  obtain ⟨k, hk, rfl⟩ := List.mem_map.mp he
  exact (List.mem_range.mp hk).trans_le h

theorem sanitizeCopy_sublist (s : PathName) : (sanitizeCopy s).Sublist s := by
  fun_induction sanitizeCopy s with
  | case1 => exact .slnil
  | case2 => exact List.nil_sublist _
  | case3 c hc => exact List.Sublist.refl _
  | case4 c d rest hcd ih => exact ih.cons c
  | case5 c d rest hcd hdot ih => exact (ih.cons d).cons c
  | case6 c d rest hcd hdot ih => exact ih.cons_cons c

theorem zero_notMem_copySafe (hs : 0 ∉ s) : 0 ∉ VfsPath.fsSanitizeCopySafe s := by
  unfold VfsPath.fsSanitizeCopySafe
  split_ifs
  · decide
  · exact fun hmem => hs ((sanitizeCopy_sublist s).subset hmem)

theorem length_copySafe_le (s : PathName) : (VfsPath.fsSanitizeCopySafe s).length ≤ max s.length 1 := by
  unfold VfsPath.fsSanitizeCopySafe
  split_ifs
  · exact le_max_right _ _
  · exact (sanitizeCopy_sublist s).length_le.trans (le_max_left _ _)

/-- The working directory, the slash and the name, before the pass over the whole. -/
def total (cwd filename : PathName) : PathName :=
  cwd ++ List.replicate (offset cwd) slash ++ VfsPath.fsSanitizeCopySafe filename

theorem offset_le (cwd : PathName) : offset cwd ≤ 1 := by
  unfold offset
  split_ifs
  · exact le_rfl
  · exact Nat.zero_le 1

theorem length_total (cwd filename : PathName) :
    (total cwd filename).length = cwd.length + offset cwd + (VfsPath.fsSanitizeCopySafe filename).length := by
  rw [total, List.length_append, List.length_append, List.length_replicate]

theorem zero_notMem_total (hcwd : 0 ∉ cwd) (hname : 0 ∉ filename) : 0 ∉ total cwd filename := by
  intro hmem
  rcases List.mem_append.mp hmem with hbefore | hafter
  · rcases List.mem_append.mp hbefore with hdir | hslash
    · exact hcwd hdir
    · exact absurd (List.eq_of_mem_replicate hslash) (by decide)
  · exact zero_notMem_copySafe hname hafter

theorem joined_eq_take (h : filename.head? ≠ some slash) : joined cwd filename =
    (VfsPath.fsSanitizeCopySafe (total cwd filename)).take (cwd.length + offset cwd + filename.length) :=
  if_neg h

theorem zero_notMem_joined (hcwd : 0 ∉ cwd) (hname : 0 ∉ filename) : 0 ∉ joined cwd filename := by
  by_cases habsolute : filename.head? = some slash
  · rw [joined, if_pos habsolute]
    exact zero_notMem_copySafe hname
  · rw [joined_eq_take habsolute]
    exact fun hmem => zero_notMem_copySafe (zero_notMem_total hcwd hname) (List.mem_of_mem_take hmem)

/-- Memory after the working directory and the slash. -/
theorem writeSeparator_yields (hsize : cwd.length + offset cwd < size) :
    (writeSeparator (writeList mem 0 cwd) cwd).Yields (BufferAccess.Inside size)
      (writeList mem 0 (cwd ++ List.replicate (offset cwd) slash)) := by
  unfold writeSeparator
  by_cases hone : offset cwd = 1
  · rw [if_pos hone, hone]
    have hbytes : Function.update (writeList mem 0 cwd) cwd.length slash =
        writeList mem 0 (cwd ++ List.replicate 1 slash) := by
      rw [← writeList_append, Nat.zero_add]
      change _ = writeList (writeList mem 0 cwd) cwd.length [slash]
      rw [← writeList_cons, writeList_nil]
    rw [← hbytes]
    exact writeByte_yields (by omega) slash
  · have hzero : offset cwd = 0 := by
      have := offset_le cwd
      omega
    rw [if_neg hone, hzero, List.replicate_zero, List.append_nil]
    exact Traced.yields_pure _

/-- Everything before the last part leaves `joined` in the buffer. -/
theorem fsSanitize_front (mem : Bytes) (hcwd : 0 ∉ cwd) (hname : 0 ∉ filename) (htwo : 1 < size)
    (hsize : if filename.head? = some slash then filename.length < size
      else (total cwd filename).length < size ∧ cwd.length + offset cwd + filename.length < size) :
    ∃ mem', Holds mem' (joined cwd filename) ∧
      (fsSanitize mem cwd filename).result = (finish (cwd.length + filename.length + 3) mem').result ∧
      ((fsSanitize mem cwd filename).Within (BufferAccess.Inside size) ↔
        (finish (cwd.length + filename.length + 3) mem').Within (BufferAccess.Inside size)) := by
  have hsafe := length_copySafe_le filename
  unfold fsSanitize
  dsimp only
  by_cases habsolute : filename.head? = some slash
  · rw [if_pos habsolute] at hsize
    have hcopy : (fsSanitizeCopySafe (some filename) (cwd.length + filename.length + 3) mem 0).Yields
        (BufferAccess.Inside size) _ :=
      fsSanitizeCopySafe_yields (by omega) hname (reads_other filename mem) (fun h => by cases h)
        (fun h => by cases h) (by omega)
    rw [if_pos habsolute, Traced.result_bind, hcopy.1, Exec.ok_bind]
    refine ⟨_, ?_, rfl, hcopy.within_bind_iff⟩
    rw [joined, if_pos habsolute]
    exact holds_writeList mem _
  · rw [if_neg habsolute] at hsize
    obtain ⟨htotal, hcut⟩ := hsize
    have hlength := length_total cwd filename
    have hoffset := offset_le cwd
    have hwhole := length_copySafe_le (total cwd filename)
    have hin : (copyIn mem cwd).Yields (BufferAccess.Inside size) _ := copyIn_yields (by omega)
    have hslash : (writeSeparator (writeList mem 0 cwd) cwd).Yields (BufferAccess.Inside size) _ :=
      writeSeparator_yields (by omega)
    have hcopy : (fsSanitizeCopySafe (some filename) (cwd.length + filename.length + 3)
        (writeList mem 0 (cwd ++ List.replicate (offset cwd) slash)) (offset cwd + cwd.length)).Yields
        (BufferAccess.Inside size) _ :=
      fsSanitizeCopySafe_yields (by omega) hname (reads_other filename _) (fun h => by cases h)
        (fun h => by cases h) (by omega)
    have hbytes : writeList (writeList mem 0 (cwd ++ List.replicate (offset cwd) slash)) (offset cwd + cwd.length)
        (VfsPath.fsSanitizeCopySafe filename ++ [0]) = writeList mem 0 (total cwd filename ++ [0]) := by
      have hplace : offset cwd + cwd.length = 0 + (cwd ++ List.replicate (offset cwd) slash).length := by
        rw [List.length_append, List.length_replicate]
        omega
      rw [hplace, writeList_append, ← List.append_assoc]
      rfl
    rw [hbytes] at hcopy
    have hcopy' : (fsSanitizeCopySafe none (cwd.length + filename.length + 3)
        (writeList mem 0 (total cwd filename ++ [0])) 0).Yields (BufferAccess.Inside size) _ :=
      fsSanitizeCopySafe_yields (by omega) (zero_notMem_total hcwd hname)
        (reads_of_holds (holds_writeList mem (total cwd filename))) (fun _ => rfl) (fun _ => htotal) (by omega)
    have hend : (writeByte (writeList (writeList mem 0 (total cwd filename ++ [0])) 0
        (VfsPath.fsSanitizeCopySafe (total cwd filename) ++ [0])) (cwd.length + offset cwd + filename.length) 0).Yields
        (BufferAccess.Inside size) _ := writeByte_yields hcut 0
    rw [if_neg habsolute, Traced.result_bind, hin.1, Exec.ok_bind, Traced.result_bind, hslash.1, Exec.ok_bind,
      Traced.result_bind, hcopy.1, Exec.ok_bind, Traced.result_bind, hcopy'.1, Exec.ok_bind, Traced.result_bind,
      hend.1, Exec.ok_bind]
    refine ⟨_, ?_, rfl, ?_⟩
    · rw [joined_eq_take habsolute]
      exact (holds_writeList _ _).cut _
    · exact hin.within_bind_iff.trans (hslash.within_bind_iff.trans (hcopy.within_bind_iff.trans
        (hcopy'.within_bind_iff.trans hend.within_bind_iff)))

/-- The block is large enough for all but the copies, unless the name is empty behind a slash. -/
theorem blockSize_fits (h : ¬(filename = [] ∧ offset cwd = 1)) : 1 < blockSize cwd filename ∧
    if filename.head? = some slash then filename.length < blockSize cwd filename
    else (total cwd filename).length < blockSize cwd filename ∧
      cwd.length + offset cwd + filename.length < blockSize cwd filename := by
  have hoffset := offset_le cwd
  have hsafe := length_copySafe_le filename
  have hempty : filename.length = 0 → offset cwd = 0 := by
    intro hzero
    have : ¬offset cwd = 1 := fun hone => h ⟨List.length_eq_zero_iff.mp hzero, hone⟩
    omega
  rw [length_total]
  unfold blockSize
  split_ifs with habsolute
  · have hpos : filename ≠ [] := by
      rintro rfl
      cases habsolute
    have := List.length_pos_iff.mpr hpos
    omega
  · omega

theorem length_joined_lt (cwd filename : PathName) :
    (joined cwd filename).length < cwd.length + filename.length + 3 := by
  by_cases habsolute : filename.head? = some slash
  · have hsafe := length_copySafe_le filename
    rw [joined, if_pos habsolute]
    omega
  · have hoffset := offset_le cwd
    rw [joined_eq_take habsolute, List.length_take]
    omega

/-- The buffer ends with what `fsSanitize` computes on lists. -/
theorem fsSanitize_holds (mem : Bytes) (hcwd : 0 ∉ cwd) (hname : 0 ∉ filename) :
    ∃ mem', (fsSanitize mem cwd filename).result = .ok mem' ∧ Holds mem' (VfsPath.fsSanitize cwd filename) := by
  have hfits : if filename.head? = some slash
      then filename.length < filename.length + (total cwd filename).length + cwd.length + offset cwd + 2
      else (total cwd filename).length < filename.length + (total cwd filename).length + cwd.length + offset cwd + 2 ∧
        cwd.length + offset cwd + filename.length <
          filename.length + (total cwd filename).length + cwd.length + offset cwd + 2 := by
    split_ifs
    · omega
    · omega
  obtain ⟨mem', hholds, hresult, -⟩ := fsSanitize_front mem hcwd hname (by omega) hfits
  rw [hresult]
  exact finish_result hholds (zero_notMem_joined hcwd hname) (length_joined_lt cwd filename)

end Whole

/-! ### When it stays inside -/

/-- The path that the passes see. -/
def rawPath (cwd filename : PathName) : PathName :=
  if filename.head? = some slash then filename else cwd ++ List.replicate (offset cwd) slash ++ filename

/-- No `..` comes after a component that stays. What stands before the first slash stays unless
it is empty. -/
def UpsFirst (path : PathName) : Prop :=
  (path.splitOn slash).tail.Pairwise (fun c d => d = dotdot → dropped c = true ∨ c = dotdot) ∧
    (path.head? ≠ some slash → dotdot ∉ (path.splitOn slash).tail)

instance (path : PathName) : Decidable (UpsFirst path) := inferInstanceAs (Decidable (_ ∧ _))

section Inside
variable {c path cwd filename : PathName} {cs : List PathName}

theorem sanitizeCopy_names (hc : slash ∉ c) (hcs : ∀ d ∈ cs, slash ∉ d) :
    sanitizeCopy (c ++ spread slash cs) = c ++ spread slash (cs.filter fun c => !dropped c) := by
  rw [sanitizeCopy_append hc, sanitizeCopy_spread hcs]

/-- Dropping components first changes nothing. -/
theorem sanitizeCopy_filter (l : PathName) (hcs : ∀ d ∈ cs, slash ∉ d) :
    sanitizeCopy (l ++ spread slash (cs.filter fun c => !dropped c)) = sanitizeCopy (l ++ spread slash cs) := by
  obtain ⟨e, es, he, hes, rfl⟩ := exists_names slash l
  have hall : ∀ {ds : List PathName}, (∀ d ∈ ds, slash ∉ d) → ∀ d ∈ es ++ ds, slash ∉ d := by
    intro ds hds d hd
    rcases List.mem_append.mp hd with hold | hnew
    · exact hes d hold
    · exact hds d hnew
  have hfilter : ∀ d ∈ cs.filter fun c => !dropped c, slash ∉ d := fun d hd => hcs d (List.mem_of_mem_filter hd)
  rw [List.append_assoc, List.append_assoc, ← spread_append, ← spread_append, sanitizeCopy_names he (hall hfilter),
    sanitizeCopy_names he (hall hcs), List.filter_append, List.filter_append, List.filter_filter]
  simp

theorem sanitizeCopy_total (h : filename.head? ≠ some slash) :
    sanitizeCopy (total cwd filename) = sanitizeCopy (cwd ++ List.replicate (offset cwd) slash ++ filename) := by
  obtain ⟨c, cs, hc, hcs, rfl⟩ := exists_names slash filename
  unfold total VfsPath.fsSanitizeCopySafe
  rw [sanitizeCopy_names hc hcs]
  by_cases hempty : c ++ spread slash (cs.filter fun c => !dropped c) = []
  · obtain ⟨rfl, -⟩ := List.append_eq_nil_iff.mp hempty
    obtain rfl : cs = [] := by
      cases cs with
      | nil => rfl
      | cons d cs => exact absurd rfl h
    have hslash : ∀ d ∈ [([] : PathName)], slash ∉ d := by simp
    rw [if_pos hempty]
    exact (sanitizeCopy_filter (cwd ++ List.replicate (offset cwd) slash) hslash).symm
  · rw [if_neg hempty, ← List.append_assoc, sanitizeCopy_filter _ hcs, List.append_assoc]

/-- What the second pass starts from. -/
theorem joined_cases (cwd filename : PathName) :
    (sanitizeCopy (rawPath cwd filename) ≠ [] ∧ joined cwd filename = sanitizeCopy (rawPath cwd filename)) ∨
      (sanitizeCopy (rawPath cwd filename) = [] ∧ (joined cwd filename).length ≤ 1) := by
  unfold rawPath
  by_cases habsolute : filename.head? = some slash
  · rw [if_pos habsolute, joined, if_pos habsolute]
    unfold VfsPath.fsSanitizeCopySafe
    by_cases hempty : sanitizeCopy filename = []
    · rw [if_pos hempty]
      exact .inr ⟨hempty, le_rfl⟩
    · rw [if_neg hempty]
      exact .inl ⟨hempty, rfl⟩
  · rw [if_neg habsolute, joined_eq_take habsolute]
    unfold VfsPath.fsSanitizeCopySafe
    rw [sanitizeCopy_total habsolute]
    by_cases hempty : sanitizeCopy (cwd ++ List.replicate (offset cwd) slash ++ filename) = []
    · rw [if_pos hempty, List.length_take]
      exact .inr ⟨hempty, min_le_right _ _⟩
    · rw [if_neg hempty]
      refine .inl ⟨hempty, List.take_of_length_le ?_⟩
      have hle := (sanitizeCopy_sublist (cwd ++ List.replicate (offset cwd) slash ++ filename)).length_le
      rwa [List.length_append, List.length_append, List.length_replicate] at hle

/-- The same on what the first pass leaves. -/
theorem upsFirst_iff (hc : slash ∉ c) (hcs : ∀ d ∈ cs, slash ∉ d) : UpsFirst (c ++ spread slash cs) ↔
    if c = [] then (cs.filter fun c => !dropped c).Pairwise fun c d => d = dotdot → c = dotdot
    else dotdot ∉ cs.filter fun c => !dropped c := by
  have hmem : dotdot ∈ (cs.filter fun c => !dropped c) ↔ dotdot ∈ cs :=
    List.mem_filter.trans (and_iff_left (by decide))
  unfold UpsFirst
  rw [splitOn_names hc hcs, List.tail_cons]
  split_ifs with hempty
  · subst hempty
    have hhead : ([] ++ spread slash cs).head? ≠ some slash → dotdot ∉ cs := by
      intro hhead
      cases cs with
      | nil => exact List.not_mem_nil
      | cons d cs => exact absurd rfl hhead
    rw [and_iff_left hhead, List.pairwise_filter]
    refine List.Pairwise.iff fun a b => ?_
    by_cases hdropped : dropped a = true
    · simp [hdropped]
    · have hkept : dropped dotdot = false := by decide
      constructor
      · rintro hor - - rfl
        exact (hor rfl).resolve_left hdropped
      · rintro himp rfl
        exact .inr (himp (by simpa using hdropped) (by rw [hkept]; rfl) rfl)
  · have hhead : (c ++ spread slash cs).head? ≠ some slash := by
      cases c with
      | nil => exact absurd rfl hempty
      | cons a c =>
        intro heq
        exact hc (Option.some.inj heq ▸ List.mem_cons_self)
    rw [hmem]
    refine ⟨fun h => h.2 hhead, fun hno => ⟨?_, fun _ => hno⟩⟩
    exact List.pairwise_of_forall_mem_list fun a _ b hb hdd => absurd (hdd ▸ hb) hno

/-- No `/..` anywhere, no copy. -/
theorem dotDotLoop_none {mem : Bytes} {s : PathName} {size : ℕ} (h : Holds mem s) (hs : 0 ∉ s) (hsize : s.length < size)
    (hnone : ∀ j, ¬isDotDot s j) : (dotDotLoop (s.length + 1) mem s.length 0).Within (BufferAccess.Inside size) := by
  by_cases hpos : 0 < s.length
  · have hstart := dotDotLoop_next h hs hsize hpos (hnone 0) s.length
    obtain ⟨n, hn⟩ : ∃ n, s.length = n + 1 := ⟨s.length - 1, by omega⟩
    have hloop := dotDotLoop_within_iff h hs hsize (i := 1) (n := n) one_pos (by omega)
    rw [← hn] at hloop
    exact hstart.2.mpr (hloop.mpr fun j _ => hnone j)
  · rw [dotDotLoop_end hpos]
    exact Traced.within_pure _

/-- The second pass stays inside exactly when `..` stands first. -/
theorem dotDotLoop_joined {mem : Bytes} {size : ℕ} (h : Holds mem (joined cwd filename)) (hs : 0 ∉ joined cwd filename)
    (hsize : (joined cwd filename).length < size) :
    (dotDotLoop ((joined cwd filename).length + 1) mem (joined cwd filename).length 0).Within
      (BufferAccess.Inside size) ↔ UpsFirst (rawPath cwd filename) := by
  obtain ⟨c, cs, hc, hcs, hpath⟩ := exists_names slash (rawPath cwd filename)
  have hplain : Plain (cs.filter fun c => !dropped c) := kept_filter hcs
  have hcopy := sanitizeCopy_names hc hcs
  rw [hpath, upsFirst_iff hc hcs]
  rcases joined_cases cwd filename with ⟨hne, heq⟩ | ⟨hempty, hshort⟩
  · rw [hpath] at heq
    rw [heq, hcopy] at h hs hsize ⊢
    split_ifs with hfirst
    · subst hfirst
      exact dotDotLoop_names h hs hsize le_rfl hplain
    · exact dotDotLoop_word h hs hsize le_rfl hc hfirst hplain
  · have hnone : ∀ j, ¬isDotDot (joined cwd filename) j := by
      intro j hup
      have := isDotDot_length hup
      omega
    rw [hpath, hcopy] at hempty
    obtain ⟨hfirst, hnames⟩ := List.append_eq_nil_iff.mp hempty
    rw [if_pos hfirst, spread_eq_nil_iff.mp hnames]
    exact iff_of_true (dotDotLoop_none h hs hsize hnone) .nil

/-- An empty name behind a slash: the root that is written for it does not fit. -/
theorem empty_not_inside (mem : Bytes) (h : offset cwd = 1) :
    ¬(fsSanitize mem cwd []).Within (BufferAccess.Inside (blockSize cwd [])) := by
  intro hwithin
  have hsize : blockSize cwd [] = cwd.length + 2 := rfl
  rw [hsize] at hwithin
  have hin : (copyIn mem cwd).Yields (BufferAccess.Inside (cwd.length + 2)) (writeList mem 0 cwd) :=
    copyIn_yields (by omega)
  have hslash : (writeSeparator (writeList mem 0 cwd) cwd).Yields (BufferAccess.Inside (cwd.length + 2)) _ :=
    writeSeparator_yields (by omega)
  have hrest := hslash.within_bind_iff.mp (hin.within_bind_iff.mp hwithin)
  have hcopy := (Traced.within_bind_iff.mp hrest).1
  have hend : BufferAccess.byte (offset cwd + cwd.length + 1) ∈
      (fsSanitizeCopySafe (some []) (cwd.length + ([] : PathName).length + 3)
        (writeList mem 0 (cwd ++ List.replicate (offset cwd) slash)) (offset cwd + cwd.length)).accesses := by
    change _ ∈ [BufferAccess.byte (offset cwd + cwd.length + 0), .byte (offset cwd + cwd.length),
      .byte (offset cwd + cwd.length + 1)]
    simp
  have hlt : offset cwd + cwd.length + 1 < cwd.length + 2 := hcopy _ hend
  omega

/-- Sanitising ends, and it stays in its block and copies no more than there is exactly when the
name is not empty behind a slash and no `..` comes after a component that stays. -/
theorem fsSanitize_inside_iff (mem : Bytes) (cwd filename : PathName) (hcwd : 0 ∉ cwd) (hname : 0 ∉ filename) :
    ((fsSanitize mem cwd filename).Within (BufferAccess.Inside (blockSize cwd filename)) ∧
      ∃ mem', (fsSanitize mem cwd filename).result = .ok mem') ↔
    ¬(filename = [] ∧ cwd.head? = some slash ∧ 1 < cwd.length) ∧ UpsFirst (rawPath cwd filename) := by
  obtain ⟨mem', hresult, -⟩ := fsSanitize_holds mem hcwd hname
  have hoffset : offset cwd = 1 ↔ cwd.head? = some slash ∧ 1 < cwd.length := by
    unfold offset
    split_ifs with hslash
    · exact iff_of_true rfl hslash
    · exact iff_of_false (by decide) hslash
  rw [and_iff_left ⟨mem', hresult⟩, ← hoffset]
  by_cases hempty : filename = [] ∧ offset cwd = 1
  · obtain ⟨rfl, hone⟩ := hempty
    exact iff_of_false (empty_not_inside mem hone) fun h => h.1 ⟨rfl, hone⟩
  · obtain ⟨htwo, hfits⟩ := blockSize_fits hempty
    obtain ⟨mem₁, hholds, -, hfront⟩ := fsSanitize_front mem hcwd hname htwo hfits
    have hzero := zero_notMem_joined hcwd hname
    have hlength : (joined cwd filename).length < blockSize cwd filename := by
      by_cases habsolute : filename.head? = some slash
      · have hsafe := length_copySafe_le filename
        rw [if_pos habsolute] at hfits
        rw [joined, if_pos habsolute]
        omega
      · rw [if_neg habsolute] at hfits
        rw [joined_eq_take habsolute]
        exact (List.length_take_le _ _).trans_lt hfits.2
    rw [and_iff_right hempty, hfront, finish_within_iff hholds hzero hlength htwo (length_joined_lt cwd filename),
      dotDotLoop_joined hholds hzero hlength]

/-- `/../b/./c` sanitised in `/a`. -/
theorem fsSanitize_inside_sample : UpsFirst [47, 46, 46, 47, 98, 47, 46, 47, 99] ∧
    (fsSanitize (fun _ => 7) [47, 97] [47, 46, 46, 47, 98, 47, 46, 47, 99]).Within
      (BufferAccess.Inside (blockSize [47, 97] [47, 46, 46, 47, 98, 47, 46, 47, 99])) := by
  have hups : UpsFirst [47, 46, 46, 47, 98, 47, 46, 47, 99] := by decide +kernel
  refine ⟨hups, ((fsSanitize_inside_iff (fun _ => 7) [47, 97] [47, 46, 46, 47, 98, 47, 46, 47, 99] ?_ ?_).mpr
    ⟨?_, hups⟩).1⟩
  · decide
  · decide
  · decide

/-- For `/a/..` three bytes are copied from the last of the string's block of six. -/
theorem parent_copied_from_outside :
    ¬((fsSanitize (fun _ => 7) root [47, 97, 47, 46, 46]).Within
        (BufferAccess.Inside (blockSize root [47, 97, 47, 46, 46]))) ∧
      BufferAccess.copy 0 5 3 1 ∈ (fsSanitize (fun _ => 7) root [47, 97, 47, 46, 46]).accesses := by
  refine ⟨?_, ?_⟩
  · decide +kernel
  · decide +kernel

end Inside

end SanitizeBuffer

end DualFuse.Filesystems.VfsPath
