import DualFuse.Utility.ElfImage

/-! The loop over the program headers as a run over segments, those of an interpreter in the place
of the header that names it, and what this run leaves in memory. -/

namespace DualFuse.Utility.Elf

open Library Memory Multitasking

variable {fs : Files} {c : Content} {o : ℕ} {s s' s₀ : Space} {g : Segment}

/-! ### Headers and segments -/

theorem loadInterpreterHeader_eq (h : o + 48 ≤ c.length) (s : Space) :
    loadInterpreterHeader c s o =
      run Segment.load s (if field c o 4 = ptLoad then [⟨c, interpreterBase, phdrAt c o⟩] else []) := by
  unfold loadInterpreterHeader
  rw [readAt_ok (by omega), Exec.ok_bind]
  by_cases htype : field c o 4 = ptLoad
  · rw [if_neg (not_not.mpr htype), if_pos htype, readPhdr_ok_iff.mpr ⟨h, rfl⟩, Exec.ok_bind, run_cons]
    exact (Exec.bind_ok _).symm
  · rw [if_pos htype, if_neg htype]
    rfl

theorem run_loadInterpreterHeader (h : InterpreterReadable c) (s : Space) :
    run (loadInterpreterHeader c) s (phdrOffsets (ehdrAt c)) = run Segment.load s (interpreterSegments c) := by
  have hinv : Extends Segment.load (interpreterSegments c) fun _ _ => True := fun _ _ _ _ _ _ _ _ => trivial
  exact run_flatMap hinv (eq_nil_append_append_nil _)
    (fun _ _ s o ho _ _ => loadInterpreterHeader_eq (h.headers o ho) s) trivial

/-- The address space after a header is that after its segments. -/
theorem loadHeader_eq (h : HeaderReadable fs c o) (st : Space × ℕ) :
    (loadHeader fs c st o >>= fun st => .ok st.1) = run Segment.load st.1 (headerSegments fs c o) := by
  have hlen := h.header
  unfold loadHeader headerSegments
  rw [readAt_ok (by omega), Exec.ok_bind]
  by_cases hinterp : field c o 4 = ptInterp
  · obtain ⟨hzero, ic, hic, hread⟩ := h.interp hinterp
    rw [if_pos hinterp, if_pos hinterp, readAt_ok (by omega), Exec.ok_bind, readString_ok_iff.mpr ⟨hzero, rfl⟩,
      Exec.ok_bind]
    unfold loadInterpreter
    have hname : fs (CString.content (c.drop (field c (o + 8) 8))) = some ic := hic
    rw [hname, hic]
    change (readAt ic 16 2 >>= _) >>= _ = run Segment.load st.1 (interpreterSegments ic)
    have hheader := hread.header
    rw [readAt_ok (by omega), Exec.ok_bind, if_neg (not_not.mpr hread.type), readEhdr_ok_iff.mpr ⟨hheader, rfl⟩,
      Exec.ok_bind, run_loadInterpreterHeader hread]
    cases run Segment.load st.1 (interpreterSegments ic) <;> rfl
  · rw [if_neg hinterp, if_neg hinterp]
    by_cases htype : field c o 4 = ptLoad
    · rw [if_neg (not_not.mpr htype), if_pos htype, readPhdr_ok_iff.mpr ⟨hlen, rfl⟩, Exec.ok_bind, run_cons]
      change (elfProcessLoad st.1 (phdrAt c o) c 0 >>= _) >>= _ = elfProcessLoad st.1 (phdrAt c o) c 0 >>= _
      cases elfProcessLoad st.1 (phdrAt c o) c 0 <;> rfl
    · rw [if_pos htype, if_neg htype]
      rfl

/-- The loop over the headers leaves what the run over their segments leaves. -/
theorem run_loadHeader (os : List ℕ) (h : ∀ o ∈ os, HeaderReadable fs c o) (st : Space × ℕ) :
    (run (loadHeader fs c) st os >>= fun st => .ok st.1) =
      run Segment.load st.1 (os.flatMap (headerSegments fs c)) := by
  induction os generalizing st with
  | nil => rfl
  | cons o os ih =>
    have hstep := loadHeader_eq (h o List.mem_cons_self) st
    rw [run_cons, List.flatMap_cons, run_append, ← hstep]
    cases loadHeader fs c st o with
    | error e => rfl
    | ok st' => exact ih (fun o ho => h o (List.mem_cons_of_mem _ ho)) st'

theorem base_of_mem_segments (h : g ∈ segments fs c) : g.base % pageSize = 0 := by
  obtain ⟨o, -, ho⟩ := List.mem_flatMap.mp h
  unfold headerSegments at ho
  split_ifs at ho
  · cases hic : fs (interpName c o) with
    | none =>
      rw [hic] at ho
      exact absurd ho List.not_mem_nil
    | some ic =>
      rw [hic] at ho
      obtain ⟨o', -, ho'⟩ := List.mem_flatMap.mp ho
      split_ifs at ho'
      · rw [List.mem_singleton.mp ho']
        change interpreterBase % pageSize = 0
        decide
      · exact absurd ho' List.not_mem_nil
  · rw [List.mem_singleton.mp ho]
    rfl
  · exact absurd ho List.not_mem_nil

/-! ### The image -/

/-- A run over the segments that does not stop has counted the pages of each. -/
theorem countable_of_run_ok {segs : List Segment} (hbase : ∀ g ∈ segs, g.base % pageSize = 0)
    (h : run Segment.load s segs = .ok s') : ∀ g ∈ segs, g.Countable := by
  intro g hg
  obtain ⟨u, u', hload⟩ := step_ok_of_run_ok h g hg
  unfold Segment.Countable Segment.address
  rcases (elfProcessLoad_ok (hbase g hg) hload).2 with ⟨-, hmemsz⟩ | ⟨-, -, hcount⟩
  · unfold pageSize
    omega
  · exact hcount

/-- Outside the segments the pages hold zeros where their frames did. -/
theorem Holds.imageRight {order : List ℕ} {segs : List Segment} (h : Holds s₀ order segs s) (hn : s₀.free.Nodup)
    (horder : order = pageOrder segs) (hz : ZeroedOutside s₀ segs) : ImageRight s₀ s segs where
  loaded := h.loaded
  cleared x hx hm hout := by
    obtain ⟨f, hf⟩ := Option.isSome_iff_exists.mp hm
    have hpage := hf
    rw [slot_of_user hx] at hpage
    obtain ⟨k, hk, hkf⟩ := (h.pages _ (page_lt hx) f).mp hpage
    rw [horder] at hk
    have hoffset : x % pageSize < pageSize := Nat.mod_lt x (by decide)
    have hzero := hz k (x / pageSize) f hk hkf (x % pageSize) hoffset (by rwa [Nat.div_add_mod'])
    rw [Space.read, hf, Option.map_some, h.stale x hx f hf hout, hzero]
  allocated p hp f hf := h.allocated hn hp hf
  owned := h.owned hn
  mapped p hp := by rw [h.isSome_pages hp, horder, mem_pageOrder]

theorem ImageRight.zeroedOutside {segs : List Segment} (hi : ImageRight s₀ s segs)
    (h : Holds s₀ (pageOrder segs) segs s) : ZeroedOutside s₀ segs := by
  intro k p f hk hkf o ho hout
  have hp := h.user p (List.mem_of_getElem? hk)
  have hf : s.pages p = some f := (h.pages p hp f).mpr ⟨k, hk, hkf⟩
  have hx : p * pageSize + o < userEnd := by
    unfold userEnd userPages pageSize at *
    omega
  have hslot : slot (p * pageSize + o) = p := by
    rw [slot_of_user hx]
    unfold pageSize at *
    omega
  have hoffset : (p * pageSize + o) % pageSize = o := by
    unfold pageSize at *
    omega
  have hpage : s.pages (slot (p * pageSize + o)) = some f := by rw [hslot, hf]
  have hzero := hi.cleared _ hx (by rw [hpage]; rfl) hout
  have hstale := h.stale _ hx f hpage hout
  rw [Space.read, hpage, Option.map_some, hoffset] at hzero
  rw [hoffset] at hstale
  rw [← hstale]
  exact Option.some.inj hzero

namespace WellFormed

theorem run_ok_iff (h : WellFormed fs c) (s : Space) :
    (∃ entry, run (loadHeader fs c) (s, 0) (phdrOffsets (ehdrAt c)) = .ok (s', entry)) ↔
      run Segment.load s (segments fs c) = .ok s' := by
  have hrun := run_loadHeader _ h.headers (s, 0)
  rw [segments, ← hrun, Exec.bind_ok_iff]
  constructor
  · rintro ⟨entry, hentry⟩
    exact ⟨(s', entry), hentry, rfl⟩
  · rintro ⟨⟨t, entry⟩, ht, heq⟩
    cases heq
    exact ⟨entry, ht⟩

/-- Where memory is enough and an `int` counts the pages, all segments are loaded. -/
theorem holds (h : WellFormed fs c) (hs : s.Fresh) (henough : Enough s (segments fs c))
    (hc : ∀ g ∈ segments fs c, g.Countable) :
    ∃ s', run Segment.load s (segments fs c) = .ok s' ∧ Holds s (pageOrder (segments fs c)) (segments fs c) s' :=
  hs.holds.loads hs.nodup h.loads (fun _ hg => base_of_mem_segments hg) hc h.apart henough

theorem loadsImage (h : WellFormed fs c) (hs : s.Fresh) (hc : ∀ g ∈ segments fs c, g.Countable)
    (hz : ZeroedOutside s (segments fs c)) : LoadsImage fs c s := by
  intro henough
  obtain ⟨s', hrun, hholds⟩ := h.holds hs henough hc
  obtain ⟨entry, hentry⟩ := (h.run_ok_iff s).mpr hrun
  exact ⟨s', entry, hentry, hholds.imageRight hs.nodup rfl hz⟩

theorem of_loadsImage (h : WellFormed fs c) (hs : s.Fresh) (hl : LoadsImage fs c s)
    (henough : Enough s (segments fs c)) :
    (∀ g ∈ segments fs c, g.Countable) ∧ ZeroedOutside s (segments fs c) := by
  obtain ⟨s', entry, hrun, hi⟩ := hl henough
  have hsegs := (h.run_ok_iff s).mp ⟨entry, hrun⟩
  have hc := countable_of_run_ok (fun _ hg => base_of_mem_segments hg) hsegs
  obtain ⟨t, ht, hholds⟩ := h.holds hs henough hc
  rw [hsegs] at ht
  cases ht
  exact ⟨hc, hi.zeroedOutside hholds⟩

end WellFormed

/-- A program is loaded with the right image exactly where its pages get frames that hold zeros
outside its segments. -/
theorem loadsImage_iff (fs : Files) (c : Content) (s : Space) (h : WellFormed fs c) (hs : s.Fresh) :
    LoadsImage fs c s ↔
      (Enough s (segments fs c) → (∀ g ∈ segments fs c, g.Countable) ∧ ZeroedOutside s (segments fs c)) := by
  constructor
  · exact fun hl henough => h.of_loadsImage hs hl henough
  · intro hcond henough
    obtain ⟨hc, hz⟩ := hcond henough
    exact h.loadsImage hs hc hz henough

/-! ### Two programs -/

theorem staleSpace_fresh : staleSpace.Fresh where
  unmapped p hp := if_neg (by unfold userPages at hp; omega)
  nodup := by decide

/-- One segment of its own 120 bytes. -/
def headerOnly : Content := oneSegment 0 0x400000 120 120

theorem wellFormed_of_one {ph : Phdr} (hlen : 112 ≤ c.length) (hoffsets : phdrOffsets (ehdrAt c) = [64])
    (htype : field c 64 4 = ptLoad) (hph : phdrAt c 64 = ph) (hg : Segment.WellFormed ⟨c, 0, ph⟩) :
    segments fs c = [⟨c, 0, ph⟩] ∧ WellFormed fs c := by
  have hinterp : field c 64 4 ≠ ptInterp := by
    rw [htype]
    decide
  have hsegs : segments fs c = [⟨c, 0, ph⟩] := by
    unfold segments
    rw [hoffsets, List.flatMap_singleton, headerSegments, if_neg hinterp, if_pos htype, hph]
  refine ⟨hsegs, by omega, fun o ho => ?_, fun g hmem => ?_, ?_⟩
  · rw [hoffsets, List.mem_singleton] at ho
    rw [ho]
    exact ⟨hlen, fun h => absurd h hinterp⟩
  · rw [hsegs, List.mem_singleton] at hmem
    rwa [hmem]
  · rw [hsegs]
    exact List.pairwise_singleton _ _

theorem smallProgram_segments : segments (fun _ => some smallProgram) smallProgram =
    [⟨smallProgram, 0, ⟨0, 0x400000, 120, 0x1000⟩⟩] ∧ WellFormed (fun _ => some smallProgram) smallProgram :=
  wellFormed_of_one (by decide +kernel) (by decide +kernel) (by decide +kernel) (by decide +kernel)
    ⟨.inr (by decide +kernel), by decide, by decide +kernel⟩

theorem headerOnly_segments : segments (fun _ => some headerOnly) headerOnly =
    [⟨headerOnly, 0, ⟨0, 0x400000, 120, 120⟩⟩] ∧ WellFormed (fun _ => some headerOnly) headerOnly :=
  wellFormed_of_one (by decide +kernel) (by decide +kernel) (by decide +kernel) (by decide +kernel)
    ⟨.inr (by decide +kernel), by decide, by decide +kernel⟩

theorem address_oneSegment (c : Content) (filesz memsz : ℕ) :
    Segment.address ⟨c, 0, ⟨0, 0x400000, filesz, memsz⟩⟩ = 0x400000 := by
  change wrap (0 + 0x400000) = 0x400000
  decide

/-- A segment that fills its page leaves nothing of the frame. -/
theorem loadsImage_small : LoadsImage (fun _ => some smallProgram) smallProgram staleSpace := by
  obtain ⟨hsegs, hw⟩ := smallProgram_segments
  refine (loadsImage_iff _ _ _ hw staleSpace_fresh).mpr fun _ => ?_
  rw [hsegs]
  generalize smallProgram = c
  refine ⟨fun g hg => ?_, fun k p f hk _ o ho hout => ?_⟩
  · rw [List.mem_singleton.mp hg, Segment.Countable, address_oneSegment]
    change 0x400000 % pageSize + 0x1000 ≤ 2 ^ 31
    decide
  · have hpage : p ∈ pageOrder [⟨c, 0, ⟨0, 0x400000, 120, 0x1000⟩⟩] := List.mem_of_getElem? hk
    obtain ⟨g, hg, htouches⟩ := mem_pageOrder.mp hpage
    have hcovers := hout g hg
    rw [List.mem_singleton.mp hg] at htouches hcovers
    unfold Segment.Touches Segment.Covers at *
    rw [address_oneSegment] at htouches hcovers
    simp only [pageSize] at htouches hcovers ho
    omega

/-- Behind the 120 bytes of this program its page holds what its frame held before. -/
theorem frame_leaks : WellFormed (fun _ => some headerOnly) headerOnly ∧ staleSpace.Fresh ∧
    Enough staleSpace (segments (fun _ => some headerOnly) headerOnly) ∧
    ¬LoadsImage (fun _ => some headerOnly) headerOnly staleSpace := by
  obtain ⟨hsegs, hw⟩ := headerOnly_segments
  have horder : pageOrder (segments (fun _ => some headerOnly) headerOnly) = [0x400] := by
    rw [hsegs]
    decide +kernel
  have henough : Enough staleSpace (segments (fun _ => some headerOnly) headerOnly) := by
    rw [Enough, horder]
    decide
  refine ⟨hw, staleSpace_fresh, henough, fun hl => ?_⟩
  have hz := (hw.of_loadsImage staleSpace_fresh hl henough).2
  have hstale := hz 0 0x400 5 (by rw [horder]; rfl) rfl 200 (by decide) fun g hg => by
    rw [hsegs, List.mem_singleton] at hg
    rw [hg, Segment.Covers, address_oneSegment]
    decide
  exact absurd hstale (by decide)

end DualFuse.Utility.Elf
