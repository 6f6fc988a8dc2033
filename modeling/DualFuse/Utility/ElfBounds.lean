import DualFuse.Utility.Elf

/-! Where the loader reads and stores. What a file has to be like for the loader to stay inside
the buffer and inside the pages of each segment is read off its headers, of which only the first
bytes are checked: every load that is not refused and does not halt keeps to its bounds exactly
where the file has them. -/

namespace DualFuse.Utility.Elf

open Library Memory Multitasking

/-! ### The bounds of a file -/

/-- The bytes of a segment are in the file. -/
def FileFits (c : Content) (ph : Phdr) : Prop := ph.pFilesz = 0 ∨ ph.pOffset + ph.pFilesz ≤ c.length

/-- The address of a segment in the new address space. -/
def segmentAddress (base : ℕ) (ph : Phdr) : ℕ := wrap (base + ph.pVaddr)

/-- A segment with bytes ends in the user half, its file bytes end on its last page, and its pages
are few enough for an `int` to count their bytes. -/
def MemoryFits (base : ℕ) (ph : Phdr) : Prop :=
  (ph.pFilesz = 0 ∧ ph.pMemsz = 0) ∨
    (segmentAddress base ph + max ph.pFilesz ph.pMemsz ≤ userEnd ∧
      segmentAddress base ph % pageSize + ph.pFilesz ≤
        (segmentAddress base ph % pageSize + ph.pMemsz + (pageSize - 1)) / pageSize * pageSize ∧
      segmentAddress base ph % pageSize + ph.pMemsz ≤ 2 ^ 31)

structure SegmentFits (c : Content) (base o : ℕ) : Prop where
  header : o + 48 ≤ c.length
  file : FileFits c (phdrAt c o)
  memory : MemoryFits base (phdrAt c o)

/-- The bounds of an interpreter. One that is not of type `ET_DYN` is read no further. -/
def InterpreterBounded (c : Content) : Prop :=
  18 ≤ c.length ∧ (field c 16 2 = etDyn → 58 ≤ c.length ∧
    ∀ o ∈ phdrOffsets (ehdrAt c), o + 4 ≤ c.length ∧ (field c o 4 = ptLoad → SegmentFits c interpreterBase o))

/-- The name of the interpreter ends in the file, and the interpreter has its bounds. -/
def InterpFits (fs : Files) (c : Content) (o : ℕ) : Prop :=
  o + 16 ≤ c.length ∧ 0 ∈ c.drop (field c (o + 8) 8) ∧
    ∀ ic, fs (CString.content (c.drop (field c (o + 8) 8))) = some ic → InterpreterBounded ic

structure HeaderBounded (fs : Files) (c : Content) (o : ℕ) : Prop where
  type : o + 4 ≤ c.length
  interp : field c o 4 = ptInterp → InterpFits fs c o
  load : field c o 4 = ptLoad → SegmentFits c 0 o

/-- All places that the headers of the file and of its interpreters name are there. -/
def Bounded (fs : Files) (c : Content) : Prop :=
  58 ≤ c.length ∧ ∀ o ∈ phdrOffsets (ehdrAt c), HeaderBounded fs c o

/-- Nothing is read or stored outside its bounds, and the system does not halt over a file that
lacks them. -/
def KeepsBounds (fs : Files) (c : Content) (m : Exec (Option Loaded)) : Prop :=
  Exec.Meets (fun e => e = .halt ∧ Bounded fs c) (fun _ => True) m

/-! ### Reads -/

variable {fs : Files} {c out l : Content} {o n v base i a x : ℕ} {ph : Phdr} {s s' : Space} {pages : List ℕ}

theorem readAt_ok_iff : readAt c o n = .ok v ↔ o + n ≤ c.length ∧ v = field c o n := Exec.guarded_ok_iff

theorem readAt_ok (h : o + n ≤ c.length) : readAt c o n = .ok (field c o n) := if_pos h

theorem readEhdr_ok_iff {h : Ehdr} : readEhdr c = .ok h ↔ 58 ≤ c.length ∧ h = ehdrAt c := Exec.guarded_ok_iff

theorem readPhdr_ok_iff : readPhdr c o = .ok ph ↔ o + 48 ≤ c.length ∧ ph = phdrAt c o := Exec.guarded_ok_iff

theorem readString_ok_iff : readString c o = .ok l ↔ 0 ∈ c.drop o ∧ l = CString.content (c.drop o) := Exec.guarded_ok_iff

theorem readBytes_ok_iff :
    readBytes c o n = .ok l ↔ (n = 0 ∨ o + n ≤ c.length) ∧ l = (c.drop o).take n := Exec.guarded_ok_iff

theorem store_ok_iff :
    s.store pages a l = .ok s' ↔ Inside pages a l.length ∧ s' = s.putBytes a l := Exec.guarded_ok_iff

theorem length_take_drop (h : n = 0 ∨ o + n ≤ c.length) : ((c.drop o).take n).length = n := by
  rw [List.length_take, List.length_drop]
  omega

theorem store_ok (h : Inside pages a l.length) : s.store pages a l = .ok (s.putBytes a l) := if_pos h

/-! ### The pages of a segment -/

theorem segmentAddress_rounded (hbase : base % pageSize = 0) (ph : Phdr) :
    wrap (base + ph.pVaddr / pageSize * pageSize) = segmentAddress base ph / pageSize * pageSize := by
  unfold segmentAddress wrap pageSize at *
  omega

theorem wrapInt_bounds (z : ℤ) : -2 ^ 31 ≤ wrapInt z ∧ wrapInt z < 2 ^ 31 ∧ (z - wrapInt z) % 2 ^ 32 = 0 := by
  unfold wrapInt
  rw [Int.bmod_def]
  omega

/-- From the start of the segment on, its pages are the ones that are asked for, as far as an
`int` counts. -/
theorem mem_segmentPages (hbase : base % pageSize = 0) (hx : segmentAddress base ph ≤ x) (huser : x < userEnd) :
    x / pageSize * pageSize ∈ segmentPages base ph ↔
      x / pageSize - segmentAddress base ph / pageSize < min (pagesRequired ph) (2 ^ 19) := by
  have hstart := segmentAddress_rounded hbase ph
  unfold segmentPages
  rw [List.mem_map]
  generalize pagesRequired ph = required
  generalize segmentAddress base ph = a at *
  generalize ph.pVaddr / pageSize * pageSize = start at *
  unfold userEnd pageSize wrap at *
  constructor
  · rintro ⟨j, hj, heq⟩
    have hj := List.mem_range.mp hj
    have hbounds := wrapInt_bounds ((j : ℤ) * 0x1000)
    generalize wrapInt ((j : ℤ) * 0x1000) = d at *
    unfold intToSize at heq
    omega
  · intro hlt
    refine ⟨x / 4096 - a / 4096, List.mem_range.mpr (by omega), ?_⟩
    have hbounds := wrapInt_bounds (((x / 4096 - a / 4096 : ℕ) : ℤ) * 0x1000)
    generalize wrapInt (((x / 4096 - a / 4096 : ℕ) : ℤ) * 0x1000) = d at *
    unfold intToSize
    omega

theorem inside_iff (hbase : base % pageSize = 0) :
    Inside (segmentPages base ph) (segmentAddress base ph) n ↔
      n = 0 ∨ (segmentAddress base ph + n ≤ userEnd ∧
        segmentAddress base ph % pageSize + n ≤ min (pagesRequired ph) (2 ^ 19) * pageSize) := by
  constructor
  · intro h
    rcases Nat.eq_zero_or_pos n with hn | hn
    · exact .inl hn
    · obtain ⟨huser, hmem⟩ := h (n - 1) (by omega)
      have hpage := (mem_segmentPages hbase (by omega) huser).mp hmem
      unfold pageSize at *
      omega
  · rintro (rfl | ⟨huser, hfits⟩) i hi
    · exact absurd hi (Nat.not_lt_zero i)
    · have hi' : segmentAddress base ph + i < userEnd := by omega
      refine ⟨hi', (mem_segmentPages hbase (by omega) hi').mpr ?_⟩
      unfold pageSize at *
      omega

theorem inside_add {k : ℕ} : Inside pages a (n + k) ↔ Inside pages a n ∧ Inside pages (a + n) k := by
  constructor
  · intro h
    refine ⟨fun i hi => h i (by omega), fun i hi => ?_⟩
    rw [Nat.add_assoc]
    exact h (n + i) (by omega)
  · rintro ⟨hn, hk⟩ i hi
    by_cases hlow : i < n
    · exact hn i hlow
    · have hinside := hk (i - n) (by omega)
      rwa [show a + n + (i - n) = a + i by omega] at hinside

theorem pagesRequired_eq (hbase : base % pageSize = 0) (h : segmentAddress base ph % pageSize + ph.pMemsz < 2 ^ 63) :
    pagesRequired ph = (segmentAddress base ph % pageSize + ph.pMemsz + (pageSize - 1)) / pageSize := by
  unfold pagesRequired ceilingDivision segmentAddress wrap pageSize at *
  omega

/-- Both stores of a segment, the file bytes and the zeros behind them, stay in its pages. -/
theorem stores_inside_iff (hbase : base % pageSize = 0) :
    (Inside (segmentPages base ph) (segmentAddress base ph) ph.pFilesz ∧
      (ph.pMemsz > ph.pFilesz →
        Inside (segmentPages base ph) (wrap (base + ph.pVaddr + ph.pFilesz)) (ph.pMemsz - ph.pFilesz))) ↔
      MemoryFits base ph := by
  have hnext : Inside (segmentPages base ph) (segmentAddress base ph) ph.pFilesz →
      wrap (base + ph.pVaddr + ph.pFilesz) = segmentAddress base ph + ph.pFilesz := by
    intro hinside
    have hfits := (inside_iff hbase).mp hinside
    unfold segmentAddress userEnd wrap at *
    omega
  have hwhole : (Inside (segmentPages base ph) (segmentAddress base ph) ph.pFilesz ∧
      (ph.pMemsz > ph.pFilesz →
        Inside (segmentPages base ph) (wrap (base + ph.pVaddr + ph.pFilesz)) (ph.pMemsz - ph.pFilesz))) ↔
      Inside (segmentPages base ph) (segmentAddress base ph) (max ph.pFilesz ph.pMemsz) := by
    rcases Nat.lt_or_ge ph.pFilesz ph.pMemsz with hlt | hge
    · rw [max_eq_right hlt.le, show ph.pMemsz = ph.pFilesz + (ph.pMemsz - ph.pFilesz) by omega, inside_add,
        ← show ph.pMemsz = ph.pFilesz + (ph.pMemsz - ph.pFilesz) by omega]
      refine and_congr_right fun hinside => ?_
      rw [hnext hinside]
      exact ⟨fun h => h hlt, fun h _ => h⟩
    · rw [max_eq_left hge]
      exact ⟨fun h => h.1, fun h => ⟨h, fun hlt => absurd hlt (by omega)⟩⟩
  rw [hwhole, inside_iff hbase]
  unfold MemoryFits
  refine or_congr (by omega) (and_congr_right fun huser => ?_)
  have hrequired : pagesRequired ph =
      (segmentAddress base ph % pageSize + ph.pMemsz + (pageSize - 1)) / pageSize := by
    apply pagesRequired_eq hbase
    unfold userEnd pageSize at *
    omega
  rw [hrequired]
  unfold pageSize
  omega

/-! ### One segment -/

theorem mapPage_meets (s : Space) (v : ℕ) : Exec.Meets (· = .halt) (fun _ => True) (s.mapPage v) := by
  unfold Space.mapPage
  cases s.pages (slot v) with
  | some f => trivial
  | none =>
    cases s.free with
    | nil => rfl
    | cons f free => trivial

/-- The segment of a load that does not stop has its bounds. -/
theorem elfProcessLoad_ok (hbase : base % pageSize = 0) (h : elfProcessLoad s ph out base = .ok s') :
    FileFits out ph ∧ MemoryFits base ph := by
  obtain ⟨s₁, -, hread⟩ := Exec.bind_ok_iff.mp h
  obtain ⟨data, hdata, hcopy⟩ := Exec.bind_ok_iff.mp hread
  obtain ⟨s₂, hstore, hclear⟩ := Exec.bind_ok_iff.mp hcopy
  obtain ⟨hfile, rfl⟩ := readBytes_ok_iff.mp hdata
  have hcopied := (store_ok_iff.mp hstore).1
  rw [length_take_drop hfile] at hcopied
  refine ⟨hfile, (stores_inside_iff hbase).mp ⟨hcopied, fun hlt => ?_⟩⟩
  rw [if_pos hlt] at hclear
  have hcleared := (store_ok_iff.mp hclear).1
  rwa [List.length_replicate] at hcleared

/-- A segment with its bounds is loaded, as far as there is memory. -/
theorem elfProcessLoad_meets (hbase : base % pageSize = 0) (hfile : FileFits out ph) (hmemory : MemoryFits base ph)
    (s : Space) : Exec.Meets (· = .halt) (fun _ => True) (elfProcessLoad s ph out base) := by
  obtain ⟨hcopied, hcleared⟩ := (stores_inside_iff hbase).mpr hmemory
  unfold elfProcessLoad
  apply (run_meets_of_steps fun u v _ => mapPage_meets u v).bind
  intro s₁ _
  rw [readBytes_ok_iff.mpr ⟨hfile, rfl⟩, Exec.ok_bind]
  have hdata : Inside (segmentPages base ph) (wrap (base + ph.pVaddr))
      ((out.drop ph.pOffset).take ph.pFilesz).length := by
    rw [length_take_drop hfile]
    exact hcopied
  rw [store_ok hdata, Exec.ok_bind]
  split_ifs with hlt
  · have hzeros : Inside (segmentPages base ph) (wrap (base + ph.pVaddr + ph.pFilesz))
        (List.replicate (ph.pMemsz - ph.pFilesz) (0 : BitVec 8)).length := by
      rw [List.length_replicate]
      exact hcleared hlt
    rw [store_ok hzeros]
    trivial
  · trivial

/-! ### The program headers -/

theorem loadInterpreterHeader_ok (h : loadInterpreterHeader c s o = .ok s') :
    o + 4 ≤ c.length ∧ (field c o 4 = ptLoad → SegmentFits c interpreterBase o) := by
  obtain ⟨pType, htype, hrest⟩ := Exec.bind_ok_iff.mp h
  obtain ⟨hlen, rfl⟩ := readAt_ok_iff.mp htype
  refine ⟨hlen, fun hseg => ?_⟩
  rw [if_neg (not_not.mpr hseg)] at hrest
  obtain ⟨ph, hph, hprocess⟩ := Exec.bind_ok_iff.mp hrest
  obtain ⟨hheader, rfl⟩ := readPhdr_ok_iff.mp hph
  obtain ⟨hfits, hmemory⟩ := elfProcessLoad_ok (by decide) hprocess
  exact ⟨hheader, hfits, hmemory⟩

theorem loadInterpreterHeader_meets (hlen : o + 4 ≤ c.length)
    (hload : field c o 4 = ptLoad → SegmentFits c interpreterBase o) (s : Space) :
    Exec.Meets (· = .halt) (fun _ => True) (loadInterpreterHeader c s o) := by
  unfold loadInterpreterHeader
  rw [readAt_ok hlen, Exec.ok_bind]
  split_ifs with hseg
  · trivial
  · have hfits := hload (not_not.mp hseg)
    rw [readPhdr_ok_iff.mpr ⟨hfits.header, rfl⟩, Exec.ok_bind]
    exact elfProcessLoad_meets (by decide) hfits.file hfits.memory s

theorem loadInterpreter_ok {name : Content} {r : Space × ℕ} (h : loadInterpreter fs s name = .ok r) :
    ∀ ic, fs name = some ic → InterpreterBounded ic := by
  intro ic hic
  unfold loadInterpreter at h
  rw [hic] at h
  obtain ⟨eType, htype, hrest⟩ := Exec.bind_ok_iff.mp h
  obtain ⟨hlen, rfl⟩ := readAt_ok_iff.mp htype
  refine ⟨hlen, fun hdyn => ?_⟩
  rw [if_neg (not_not.mpr hdyn)] at hrest
  obtain ⟨eh, heh, hloop⟩ := Exec.bind_ok_iff.mp hrest
  obtain ⟨hheader, rfl⟩ := readEhdr_ok_iff.mp heh
  obtain ⟨s₁, hrun, -⟩ := Exec.bind_ok_iff.mp hloop
  refine ⟨hheader, fun o ho => ?_⟩
  obtain ⟨u, u', hstep⟩ := step_ok_of_run_ok hrun o ho
  exact loadInterpreterHeader_ok hstep

theorem loadInterpreter_meets {name : Content} (h : ∀ ic, fs name = some ic → InterpreterBounded ic) (s : Space) :
    Exec.Meets (· = .halt) (fun _ => True) (loadInterpreter fs s name) := by
  unfold loadInterpreter
  cases hic : fs name with
  | none => rfl
  | some ic =>
    obtain ⟨hlen, hdyn⟩ := h ic hic
    change Exec.Meets _ _ (readAt ic 16 2 >>= _)
    rw [readAt_ok hlen, Exec.ok_bind]
    split_ifs with htype
    · rfl
    · obtain ⟨hheader, hheaders⟩ := hdyn (not_not.mp htype)
      rw [readEhdr_ok_iff.mpr ⟨hheader, rfl⟩, Exec.ok_bind]
      have hrun : Exec.Meets (· = .halt) (fun _ => True)
          (run (loadInterpreterHeader ic) s (phdrOffsets (ehdrAt ic))) :=
        run_meets_of_steps fun u o ho => loadInterpreterHeader_meets (hheaders o ho).1 (hheaders o ho).2 u
      exact hrun.bind fun _ _ => trivial

theorem loadHeader_ok {st st' : Space × ℕ} (h : loadHeader fs c st o = .ok st') : HeaderBounded fs c o := by
  obtain ⟨pType, htype, hrest⟩ := Exec.bind_ok_iff.mp h
  obtain ⟨hlen, rfl⟩ := readAt_ok_iff.mp htype
  refine ⟨hlen, fun hinterp => ?_, fun hseg => ?_⟩
  · rw [if_pos hinterp] at hrest
    obtain ⟨pOffset, hoffset, hname⟩ := Exec.bind_ok_iff.mp hrest
    obtain ⟨hlen', rfl⟩ := readAt_ok_iff.mp hoffset
    obtain ⟨name, hstring, hprogram⟩ := Exec.bind_ok_iff.mp hname
    obtain ⟨hzero, rfl⟩ := readString_ok_iff.mp hstring
    exact ⟨by omega, hzero, loadInterpreter_ok hprogram⟩
  · rw [if_neg (by rw [hseg]; decide), if_neg (not_not.mpr hseg)] at hrest
    obtain ⟨ph, hph, hprocess⟩ := Exec.bind_ok_iff.mp hrest
    obtain ⟨hheader, rfl⟩ := readPhdr_ok_iff.mp hph
    obtain ⟨s₁, hsegment, -⟩ := Exec.bind_ok_iff.mp hprocess
    obtain ⟨hfits, hmemory⟩ := elfProcessLoad_ok (by decide) hsegment
    exact ⟨hheader, hfits, hmemory⟩

theorem HeaderBounded.meets (h : HeaderBounded fs c o) (st : Space × ℕ) :
    Exec.Meets (· = .halt) (fun _ => True) (loadHeader fs c st o) := by
  unfold loadHeader
  rw [readAt_ok h.type, Exec.ok_bind]
  split_ifs with hinterp hseg
  · obtain ⟨hlen, hzero, hname⟩ := h.interp hinterp
    rw [readAt_ok (by omega), Exec.ok_bind, readString_ok_iff.mpr ⟨hzero, rfl⟩, Exec.ok_bind]
    exact loadInterpreter_meets hname st.1
  · trivial
  · have hfits := h.load (not_not.mp hseg)
    rw [readPhdr_ok_iff.mpr ⟨hfits.header, rfl⟩, Exec.ok_bind]
    have hprocess := elfProcessLoad_meets (by decide) hfits.file hfits.memory st.1
    exact hprocess.bind fun _ _ => trivial

/-- The stack is built from header fields that the loop over the headers has read before. -/
theorem HeaderBounded.stackPhdr_meets (h : HeaderBounded fs c o) :
    Exec.Meets (· = .halt) (fun _ => True) (stackPhdr c o) := by
  unfold stackPhdr
  rw [readAt_ok h.type, Exec.ok_bind]
  split_ifs with hseg
  · trivial
  · have hheader := (h.load (not_not.mp hseg)).header
    rw [readAt_ok (by omega)]
    trivial

/-! ### The file -/

/-- A file that is loaded has its bounds. -/
theorem elfLoad_ok {r : Loaded} (h : elfLoad fs s c = .ok r) : Bounded fs c := by
  obtain ⟨eh, heh, hloop⟩ := Exec.bind_ok_iff.mp h
  obtain ⟨hheader, rfl⟩ := readEhdr_ok_iff.mp heh
  obtain ⟨st, hrun, -⟩ := Exec.bind_ok_iff.mp hloop
  refine ⟨hheader, fun o ho => ?_⟩
  obtain ⟨u, u', hstep⟩ := step_ok_of_run_ok hrun o ho
  exact loadHeader_ok hstep

/-- A file with its bounds is loaded, or the system halts. -/
theorem Bounded.meets (h : Bounded fs c) (s : Space) :
    Exec.Meets (· = .halt) (fun _ => True) (elfLoad fs s c) := by
  obtain ⟨hheader, hheaders⟩ := h
  unfold elfLoad
  rw [readEhdr_ok_iff.mpr ⟨hheader, rfl⟩, Exec.ok_bind]
  have hrun : Exec.Meets (· = .halt) (fun _ => True) (run (loadHeader fs c) (s, 0) (phdrOffsets (ehdrAt c))) :=
    run_meets_of_steps fun u o ho => (hheaders o ho).meets u
  have hread : Exec.Meets (· = .halt) (fun _ => True) ((phdrOffsets (ehdrAt c)).mapM (stackPhdr c)) :=
    Exec.mapM_meets fun o ho => (hheaders o ho).stackPhdr_meets
  have hfields : Exec.Meets (· = .halt) (fun _ => True) (stackFields c (ehdrAt c)) := hread.bind fun _ _ => trivial
  apply hrun.bind
  intro st _
  apply hfields.bind
  exact fun _ _ => trivial

/-- What is left of the loader once the file has passed its check. -/
theorem elfExecute_checked (s : Space) {filepath : Content} (hfile : fs filepath = some out)
    (hcheck : elfCheckFile out = .ok true) :
    elfExecute fs s filepath = elfLoad fs s out >>= fun loaded => .ok (some loaded) := by
  unfold elfExecute
  rw [hfile]
  change elfCheckFile out >>= _ = _
  rw [hcheck]
  rfl

/-- The loader keeps to its bounds exactly on the files that have them. -/
theorem elfExecute_keepsBounds_iff (fs : Files) (s : Space) (filepath out : Content) (hfile : fs filepath = some out)
    (hcheck : elfCheckFile out = .ok true) : KeepsBounds fs out (elfExecute fs s filepath) ↔ Bounded fs out := by
  constructor
  · intro h
    cases hrun : elfExecute fs s filepath with
    | ok r =>
      rw [elfExecute_checked s hfile hcheck] at hrun
      obtain ⟨loaded, hload, -⟩ := Exec.bind_ok_iff.mp hrun
      exact elfLoad_ok hload
    | error e =>
      rw [hrun] at h
      exact h.2
  · intro hb
    rw [elfExecute_checked s hfile hcheck]
    exact ((hb.meets s).weaken fun e he => ⟨he, hb⟩).bind fun _ _ => trivial

/-! ### Two files -/

/-- A header with one program header of type `PT_LOAD` right behind it. -/
def oneSegment (pOffset pVaddr pFilesz pMemsz : ℕ) : Content :=
  [0x7F, 0x45, 0x4C, 0x46, 2] ++ List.replicate 11 0 ++ Bytes.ofNat 2 2 ++ Bytes.ofNat 2 0x3E ++ Bytes.ofNat 4 1 ++
    Bytes.ofNat 8 0x400000 ++ Bytes.ofNat 8 64 ++ Bytes.ofNat 8 0 ++ Bytes.ofNat 4 0 ++ Bytes.ofNat 2 64 ++
    Bytes.ofNat 2 56 ++ Bytes.ofNat 2 1 ++ List.replicate 6 0 ++
    Bytes.ofNat 4 ptLoad ++ Bytes.ofNat 4 5 ++ Bytes.ofNat 8 pOffset ++ Bytes.ofNat 8 pVaddr ++
    Bytes.ofNat 8 pVaddr ++ Bytes.ofNat 8 pFilesz ++ Bytes.ofNat 8 pMemsz ++ Bytes.ofNat 8 4096

/-- Only the kernel half is mapped, and three frames are free, with leftover bytes in them. -/
def staleSpace : Space := ⟨fun p => if 2 ^ 35 ≤ p then some p else none, fun _ _ => 0xAA, [5, 6, 7]⟩

/-- Its own headers, loaded at the usual address, in a page of which the rest is cleared. -/
def smallProgram : Content := oneSegment 0 0x400000 120 0x1000

/-- Its own headers, loaded into the direct map of the physical memory. -/
def directMapProgram : Content := oneSegment 0 0xFFFF800000001000 120 120

theorem smallProgram_bounded : Bounded (fun _ => some smallProgram) smallProgram := by
  have hoffsets : phdrOffsets (ehdrAt smallProgram) = [64] := by decide +kernel
  have hload : SegmentFits smallProgram 0 64 :=
    ⟨by decide +kernel, .inr (by decide +kernel), .inr (by decide +kernel)⟩
  have htype : field smallProgram 64 4 ≠ ptInterp := by decide +kernel
  refine ⟨by decide +kernel, fun o ho => ?_⟩
  rw [hoffsets, List.mem_singleton] at ho
  rw [ho]
  exact ⟨by decide +kernel, fun h => absurd h htype, fun _ => hload⟩

theorem elfExecute_keepsBounds_small : KeepsBounds (fun _ => some smallProgram) smallProgram
    (elfExecute (fun _ => some smallProgram) staleSpace []) := by
  have hcheck : elfCheckFile smallProgram = .ok true := by decide +kernel
  have hb := smallProgram_bounded
  generalize smallProgram = out at hcheck hb ⊢
  exact (elfExecute_keepsBounds_iff (fun _ => some out) staleSpace [] out rfl hcheck).mpr hb

/-- A file that passes its check is stored to where all tasks and the kernel have their memory. -/
theorem segment_in_direct_map : elfCheckFile directMapProgram = .ok true ∧
    elfExecute (fun _ => some directMapProgram) staleSpace [] = .error .fault ∧
    ¬KeepsBounds (fun _ => some directMapProgram) directMapProgram
      (elfExecute (fun _ => some directMapProgram) staleSpace []) := by
  have hrun : elfExecute (fun _ => some directMapProgram) staleSpace [] = .error .fault :=
    Exec.eq_error_of_meets (by decide +kernel)
  refine ⟨by decide +kernel, hrun, ?_⟩
  rw [hrun]
  rintro ⟨he, -⟩
  cases he

end DualFuse.Utility.Elf
