import DualFuse.Utility.ElfBounds

/-! What the loader leaves in the new address space. Segments are loaded one by one, each by
mapping its pages, copying and clearing, and pages that two of them share are mapped once. The
bytes of a page outside all segments are those of its frame before: a frame is handed out as the
task before has left it. -/

namespace DualFuse.Utility.Elf

open Library Memory Multitasking

/-! ### The segments of a program -/

/-- A program header of type `PT_LOAD`, with the file that it is in and the base of that file. -/
structure Segment where
  contents : Content
  base : ℕ
  phdr : Phdr

namespace Segment

def address (g : Segment) : ℕ := segmentAddress g.base g.phdr

/-- The bytes in memory: those of the file, and zeros behind them. -/
def image (g : Segment) : Content :=
  (g.contents.drop g.phdr.pOffset).take g.phdr.pFilesz ++ List.replicate (g.phdr.pMemsz - g.phdr.pFilesz) 0

def Covers (g : Segment) (x : ℕ) : Prop := g.address ≤ x ∧ x < g.address + g.phdr.pMemsz

/-- The pages from the one of the first byte to the one of the last. -/
def Touches (g : Segment) (p : ℕ) : Prop := g.address / pageSize ≤ p ∧ p * pageSize < g.address + g.phdr.pMemsz

def pages (g : Segment) : List ℕ :=
  (List.range ((g.address % pageSize + g.phdr.pMemsz + (pageSize - 1)) / pageSize)).map (g.address / pageSize + ·)

def load (s : Space) (g : Segment) : Exec Space := elfProcessLoad s g.phdr g.contents g.base

structure WellFormed (g : Segment) : Prop where
  file : FileFits g.contents g.phdr
  sizes : g.phdr.pFilesz ≤ g.phdr.pMemsz
  user : g.address + g.phdr.pMemsz ≤ userEnd

/-- An `int` counts the bytes of the pages. -/
def Countable (g : Segment) : Prop := g.address % pageSize + g.phdr.pMemsz ≤ 2 ^ 31

def Apart (g k : Segment) : Prop := ∀ x, ¬(g.Covers x ∧ k.Covers x)

end Segment

def interpreterSegments (contents : Content) : List Segment :=
  (phdrOffsets (ehdrAt contents)).flatMap fun o =>
    if field contents o 4 = ptLoad then [⟨contents, interpreterBase, phdrAt contents o⟩] else []

/-- The name behind the header of type `PT_INTERP` at offset `o`. -/
def interpName (c : Content) (o : ℕ) : Content := CString.content (c.drop (field c (o + 8) 8))

/-- What is loaded for the program header at offset `o`. -/
def headerSegments (fs : Files) (c : Content) (o : ℕ) : List Segment :=
  if field c o 4 = ptInterp then (fs (interpName c o)).elim [] interpreterSegments
  else if field c o 4 = ptLoad then [⟨c, 0, phdrAt c o⟩]
  else []

def segments (fs : Files) (c : Content) : List Segment := (phdrOffsets (ehdrAt c)).flatMap (headerSegments fs c)

/-- An interpreter whose headers are in its file. -/
structure InterpreterReadable (c : Content) : Prop where
  header : 58 ≤ c.length
  type : field c 16 2 = etDyn
  headers : ∀ o ∈ phdrOffsets (ehdrAt c), o + 48 ≤ c.length

/-- A program header in the file. The interpreter that it may name exists. -/
structure HeaderReadable (fs : Files) (c : Content) (o : ℕ) : Prop where
  header : o + 48 ≤ c.length
  interp : field c o 4 = ptInterp →
    0 ∈ c.drop (field c (o + 8) 8) ∧ ∃ ic, fs (interpName c o) = some ic ∧ InterpreterReadable ic

structure WellFormed (fs : Files) (c : Content) : Prop where
  header : 58 ≤ c.length
  headers : ∀ o ∈ phdrOffsets (ehdrAt c), HeaderReadable fs c o
  loads : ∀ g ∈ segments fs c, g.WellFormed
  apart : (segments fs c).Pairwise Segment.Apart

/-! ### The image -/

/-- The byte at a user address. -/
def Space.read (s : Space) (x : ℕ) : Option (BitVec 8) := (s.pages (slot x)).map fun f => s.frames f (x % pageSize)

/-- The number of pages in the user half. -/
def userPages : ℕ := 2 ^ 35

/-- A new page directory: nothing is mapped in the user half, and no frame is handed out twice. -/
structure Space.Fresh (s : Space) : Prop where
  unmapped : ∀ p < userPages, s.pages p = none
  nodup : s.free.Nodup

/-- The program is in memory, what its pages hold besides it is zero, and each page has a frame of
its own that was free before. -/
structure ImageRight (s s' : Space) (segs : List Segment) : Prop where
  loaded : ∀ g ∈ segs, ∀ i < g.phdr.pMemsz, s'.read (g.address + i) = g.image[i]?
  cleared : ∀ x < userEnd, (s'.pages (slot x)).isSome → (∀ g ∈ segs, ¬g.Covers x) → s'.read x = some 0
  allocated : ∀ p < userPages, ∀ f, s'.pages p = some f → f ∈ s.free ∧ f ∉ s'.free
  owned : ∀ p < userPages, ∀ q < userPages, ∀ f, s'.pages p = some f → s'.pages q = some f → p = q
  mapped : ∀ p < userPages, (s'.pages p).isSome ↔ ∃ g ∈ segs, g.Touches p

/-- A page that is asked for is put behind those that were asked for before, if it is new. -/
def visit (order : List ℕ) (p : ℕ) : List ℕ := if p ∈ order then order else order ++ [p]

/-- The pages of the segments, in the order in which they get their frames. -/
def pageOrder (segs : List Segment) : List ℕ := (segs.flatMap Segment.pages).foldl visit []

/-- Memory is enough for all pages. -/
def Enough (s : Space) (segs : List Segment) : Prop := (pageOrder segs).length ≤ s.free.length

/-- Where memory is enough, the loop over the headers ends with the right image. -/
def LoadsImage (fs : Files) (c : Content) (s : Space) : Prop :=
  Enough s (segments fs c) → ∃ s' entry, run (loadHeader fs c) (s, 0) (phdrOffsets (ehdrAt c)) = .ok (s', entry) ∧
    ImageRight s s' (segments fs c)

/-- The frames that the pages get hold zeros where no segment is. -/
def ZeroedOutside (s : Space) (segs : List Segment) : Prop :=
  ∀ k p f : ℕ, (pageOrder segs)[k]? = some p → s.free[k]? = some f →
    ∀ o < pageSize, (∀ g ∈ segs, ¬g.Covers (p * pageSize + o)) → s.frames f o = 0

/-! ### Stores -/

variable {s s' s₀ : Space} {a b p q f x : ℕ} {v : BitVec 8} {l : Content} {order ps : List ℕ} {g : Segment}
  {done segs : List Segment}

theorem slot_of_user (h : x < userEnd) : slot x = x / pageSize := by
  unfold slot userEnd pageSize at *
  omega

theorem slot_page (h : p < userPages) : slot (p * pageSize) = p := by
  unfold slot userPages pageSize at *
  omega

theorem slot_of_page_lt (h : x / pageSize < userPages) : slot x = x / pageSize := by
  unfold slot userPages pageSize at *
  omega

theorem page_lt (h : x < userEnd) : x / pageSize < userPages := by
  unfold userEnd userPages pageSize at *
  omega

namespace Space

/-- No two pages of the user half have a frame in common. -/
def Owned (s : Space) : Prop :=
  ∀ p < userPages, ∀ q < userPages, ∀ f, s.pages p = some f → s.pages q = some f → p = q

@[simp] theorem pages_putByte (s : Space) (a : ℕ) (v : BitVec 8) : (s.putByte a v).pages = s.pages := by
  unfold putByte
  cases s.pages (slot a) <;> rfl

@[simp] theorem free_putByte (s : Space) (a : ℕ) (v : BitVec 8) : (s.putByte a v).free = s.free := by
  unfold putByte
  cases s.pages (slot a) <;> rfl

theorem frames_putByte (h : s.pages (slot a) = some b) :
    (s.putByte a v).frames = Function.update s.frames b (Function.update (s.frames b) (a % pageSize) v) := by
  unfold putByte
  rw [h]

@[simp] theorem pages_putBytes (s : Space) (a : ℕ) (l : Content) : (s.putBytes a l).pages = s.pages := by
  induction l generalizing s a with
  | nil => rfl
  | cons v l ih => rw [putBytes, ih, pages_putByte]

@[simp] theorem free_putBytes (s : Space) (a : ℕ) (l : Content) : (s.putBytes a l).free = s.free := by
  induction l generalizing s a with
  | nil => rfl
  | cons v l ih => rw [putBytes, ih, free_putByte]

theorem putBytes_append (s : Space) (a : ℕ) (l l' : Content) :
    s.putBytes a (l ++ l') = (s.putBytes a l).putBytes (a + l.length) l' := by
  induction l generalizing s a with
  | nil => rfl
  | cons v l ih => rw [List.cons_append, putBytes, putBytes, ih, List.length_cons, Nat.add_right_comm, Nat.add_assoc]

theorem read_putByte (ho : s.Owned) (ha : a < userEnd) (hx : x < userEnd) (hm : (s.pages (slot a)).isSome) :
    (s.putByte a v).read x = if x = a then some v else s.read x := by
  obtain ⟨b, hb⟩ := Option.isSome_iff_exists.mp hm
  unfold read
  rw [pages_putByte, frames_putByte hb]
  split_ifs with heq
  · rw [heq, hb, Option.map_some, Function.update_self, Function.update_self]
  · cases hf : s.pages (slot x) with
    | none => rfl
    | some f =>
      rw [Option.map_some, Option.map_some]
      by_cases hframe : f = b
      · -- the same page, at another offset
        rw [hframe] at hf ⊢
        rw [slot_of_user ha] at hb
        rw [slot_of_user hx] at hf
        have hpage := ho _ (page_lt hx) _ (page_lt ha) b hf hb
        have hoffset : x % pageSize ≠ a % pageSize := by
          unfold pageSize at *
          omega
        rw [Function.update_self, Function.update_of_ne hoffset]
      · rw [Function.update_of_ne hframe]

/-- Where bytes were stored they are read, and elsewhere what was there before. -/
theorem read_putBytes (ho : s.Owned) (hl : ∀ i < l.length, a + i < userEnd ∧ (s.pages (slot (a + i))).isSome)
    (hx : x < userEnd) :
    (s.putBytes a l).read x = if a ≤ x ∧ x < a + l.length then l[x - a]? else s.read x := by
  induction l generalizing s a with
  | nil =>
    rw [if_neg (by rw [List.length_nil]; omega)]
    rfl
  | cons v l ih =>
    obtain ⟨ha, hm⟩ := hl 0 (by simp)
    rw [Nat.add_zero] at ha hm
    have ho' : (s.putByte a v).Owned := by
      intro p hp q hq f
      rw [pages_putByte]
      exact ho p hp q hq f
    have hl' : ∀ i < l.length, a + 1 + i < userEnd ∧ ((s.putByte a v).pages (slot (a + 1 + i))).isSome := by
      intro i hi
      rw [pages_putByte, Nat.add_assoc, Nat.add_comm 1 i]
      exact hl (i + 1) (by rw [List.length_cons]; omega)
    rw [putBytes, ih ho' hl', read_putByte ho ha hx hm, List.length_cons]
    rcases Nat.lt_trichotomy x a with hlt | rfl | hgt
    · rw [if_neg (by omega), if_neg (by omega), if_neg (by omega)]
    · rw [if_neg (by omega), if_pos rfl, if_pos (by omega), Nat.sub_self]
      rfl
    · by_cases hin : x < a + 1 + l.length
      · rw [if_pos (by omega), if_pos (by omega), show x - a = x - (a + 1) + 1 by omega, List.getElem?_cons_succ]
      · rw [if_neg (by omega), if_neg (by omega), if_neg (by omega)]

/-- A frame behind no page of the user half is left alone. -/
theorem frames_putBytes (hf : ∀ p < userPages, s.pages p ≠ some f) (hl : ∀ i < l.length, a + i < userEnd) :
    (s.putBytes a l).frames f = s.frames f := by
  induction l generalizing s a with
  | nil => rfl
  | cons v l ih =>
    have ha : a < userEnd := hl 0 (by simp)
    have hl' : ∀ i < l.length, a + 1 + i < userEnd := by
      intro i hi
      rw [Nat.add_assoc, Nat.add_comm 1 i]
      exact hl (i + 1) (by rw [List.length_cons]; omega)
    rw [putBytes, ih (by rw [pages_putByte]; exact hf) hl']
    unfold putByte
    cases hb : s.pages (slot a) with
    | none => rfl
    | some b =>
      have hne : f ≠ b := by
        rintro rfl
        rw [slot_of_user ha] at hb
        exact hf _ (page_lt ha) hb
      exact Function.update_of_ne hne _ _

end Space

/-! ### The order of the pages -/

theorem mem_visit : q ∈ visit order p ↔ q ∈ order ∨ q = p := by
  unfold visit
  split_ifs with h
  · constructor
    · exact .inl
    · rintro (hq | rfl)
      · exact hq
      · exact h
  · rw [List.mem_append, List.mem_singleton]

theorem mem_visits : q ∈ ps.foldl visit order ↔ q ∈ order ∨ q ∈ ps := by
  induction ps generalizing order with
  | nil => simp
  | cons p ps ih => rw [List.foldl_cons, ih, mem_visit, List.mem_cons, or_assoc]

theorem length_visit_le (order : List ℕ) (p : ℕ) : order.length ≤ (visit order p).length := by
  unfold visit
  split_ifs
  · exact le_rfl
  · rw [List.length_append]
    omega

theorem length_visits_le (order ps : List ℕ) : order.length ≤ (ps.foldl visit order).length := by
  induction ps generalizing order with
  | nil => exact le_rfl
  | cons p ps ih => exact (length_visit_le order p).trans (ih (visit order p))

theorem Segment.mem_pages : p ∈ g.pages ↔ g.Touches p := by
  unfold pages Touches
  rw [List.mem_map]
  unfold pageSize
  constructor
  · rintro ⟨j, hj, rfl⟩
    have hj := List.mem_range.mp hj
    omega
  · rintro ⟨hlo, hhi⟩
    exact ⟨p - g.address / 4096, List.mem_range.mpr (by omega), by omega⟩

theorem mem_pageOrder : p ∈ pageOrder segs ↔ ∃ g ∈ segs, g.Touches p := by
  unfold pageOrder
  rw [mem_visits, List.mem_flatMap]
  simp [Segment.mem_pages]

theorem getElem?_concat_eq_some_iff {k : ℕ} :
    (order ++ [p])[k]? = some q ↔ order[k]? = some q ∨ k = order.length ∧ p = q := by
  rcases Nat.lt_trichotomy k order.length with hlt | rfl | hgt
  · rw [List.getElem?_append_left hlt]
    exact ⟨.inl, fun h => h.resolve_right fun heq => absurd heq.1 hlt.ne⟩
  · simp
  · rw [List.getElem?_append_right hgt.le, List.getElem?_eq_none (by rw [List.length_singleton]; omega),
      List.getElem?_eq_none hgt.le]
    simp
    omega

/-! ### The state of the loader -/

/-- The state after these segments were loaded and these pages mapped, in this order. -/
structure Holds (s₀ : Space) (order : List ℕ) (done : List Segment) (s : Space) : Prop where
  user : ∀ p ∈ order, p < userPages
  nodup : order.Nodup
  room : order.length ≤ s₀.free.length
  free : s.free = s₀.free.drop order.length
  pages : ∀ p < userPages, ∀ f, s.pages p = some f ↔ ∃ k : ℕ, order[k]? = some p ∧ s₀.free[k]? = some f
  untouched : ∀ f ∈ s.free, s.frames f = s₀.frames f
  touched : ∀ g ∈ done, ∀ p ∈ g.pages, p ∈ order
  loaded : ∀ g ∈ done, ∀ i < g.phdr.pMemsz, s.read (g.address + i) = g.image[i]?
  stale : ∀ x < userEnd, ∀ f, s.pages (slot x) = some f → (∀ g ∈ done, ¬g.Covers x) →
    s.frames f (x % pageSize) = s₀.frames f (x % pageSize)

theorem Space.Fresh.holds (h : s₀.Fresh) : Holds s₀ [] [] s₀ where
  user p hp := absurd hp List.not_mem_nil
  nodup := List.nodup_nil
  room := Nat.zero_le _
  free := rfl
  pages p hp f := by
    rw [h.unmapped p hp]
    simp
  untouched f _ := rfl
  touched g hg := absurd hg List.not_mem_nil
  loaded g hg := absurd hg List.not_mem_nil
  stale x _ f _ _ := rfl

namespace Holds

theorem isSome_pages (h : Holds s₀ order done s) (hp : p < userPages) : (s.pages p).isSome ↔ p ∈ order := by
  rw [Option.isSome_iff_exists]
  constructor
  · rintro ⟨f, hf⟩
    obtain ⟨k, hk, -⟩ := (h.pages p hp f).mp hf
    exact List.mem_of_getElem? hk
  · intro hmem
    obtain ⟨k, hk, hget⟩ := List.getElem_of_mem hmem
    have hroom := h.room
    have horder : order[k]? = some p := by rw [List.getElem?_eq_getElem hk, hget]
    exact ⟨s₀.free[k], (h.pages p hp _).mpr ⟨k, horder, List.getElem?_eq_getElem _⟩⟩

theorem owned (h : Holds s₀ order done s) (hn : s₀.free.Nodup) : s.Owned := by
  intro p hp q hq f hpf hqf
  obtain ⟨k, hk, hkf⟩ := (h.pages p hp f).mp hpf
  obtain ⟨j, hj, hjf⟩ := (h.pages q hq f).mp hqf
  obtain ⟨hlt, -⟩ := List.getElem?_eq_some_iff.mp hkf
  have hkj : k = j := (List.getElem?_inj hlt hn).mp (hkf.trans hjf.symm)
  rw [hkj, hj] at hk
  exact (Option.some.inj hk).symm

theorem allocated (h : Holds s₀ order done s) (hn : s₀.free.Nodup) (hp : p < userPages) (hf : s.pages p = some f) :
    f ∈ s₀.free ∧ f ∉ s.free := by
  obtain ⟨k, hk, hkf⟩ := (h.pages p hp f).mp hf
  refine ⟨List.mem_of_getElem? hkf, fun hmem => ?_⟩
  rw [h.free] at hmem
  obtain ⟨j, hj⟩ := List.mem_iff_getElem?.mp hmem
  rw [List.getElem?_drop] at hj
  obtain ⟨hlt, -⟩ := List.getElem?_eq_some_iff.mp hkf
  obtain ⟨hlen, -⟩ := List.getElem?_eq_some_iff.mp hk
  have hkj := (List.getElem?_inj hlt hn).mp (hkf.trans hj.symm)
  omega

/-- A page is mapped, or was before. -/
theorem mapPage (h : Holds s₀ order done s) (hp : p < userPages)
    (hroom : (visit order p).length ≤ s₀.free.length) :
    ∃ s', s.mapPage (p * pageSize) = .ok s' ∧ Holds s₀ (visit order p) done s' := by
  unfold Space.mapPage
  rw [slot_page hp]
  cases hpage : s.pages p with
  | some f =>
    have hmem : p ∈ order := (h.isSome_pages hp).mp (by rw [hpage]; rfl)
    unfold visit
    rw [if_pos hmem]
    exact ⟨s, rfl, h⟩
  | none =>
    have hmem : p ∉ order := fun hmem => by
      have hsome := (h.isSome_pages hp).mpr hmem
      rw [hpage] at hsome
      cases hsome
    unfold visit at hroom ⊢
    rw [if_neg hmem] at hroom ⊢
    rw [List.length_append, List.length_singleton] at hroom
    have hfree : s.free = s₀.free[order.length] :: s₀.free.drop (order.length + 1) := by
      rw [h.free, List.drop_eq_getElem_cons]
    have hget : s₀.free[order.length]? = some s₀.free[order.length] := List.getElem?_eq_getElem _
    generalize s₀.free[order.length] = f at hfree hget
    have hplace : ∀ q f' : ℕ, q ≠ p →
        ((∃ k : ℕ, (order ++ [p])[k]? = some q ∧ s₀.free[k]? = some f') ↔
          ∃ k : ℕ, order[k]? = some q ∧ s₀.free[k]? = some f') := by
      intro q f' hq
      refine exists_congr fun k => and_congr_left fun _ => ?_
      rw [getElem?_concat_eq_some_iff]
      exact ⟨fun h => h.resolve_right fun heq => hq heq.2.symm, .inl⟩
    refine ⟨{ s with pages := Function.update s.pages p (some f), free := s₀.free.drop (order.length + 1) },
      by rw [hfree], ?_⟩
    exact {
      user := by
        intro q hq
        rcases List.mem_append.mp hq with hq | hq
        · exact h.user q hq
        · rwa [List.mem_singleton.mp hq]
      nodup := by
        rw [List.nodup_append]
        refine ⟨h.nodup, List.nodup_singleton p, ?_⟩
        rintro q hq r hr rfl
        exact hmem (List.mem_singleton.mp hr ▸ hq)
      room := by
        rw [List.length_append, List.length_singleton]
        exact hroom
      free := by rw [List.length_append, List.length_singleton]
      pages := by
        intro q hq f'
        change Function.update s.pages p (some f) q = some f' ↔ _
        by_cases hqp : q = p
        · rw [hqp, Function.update_self]
          constructor
          · intro heq
            exact ⟨order.length, getElem?_concat_eq_some_iff.mpr (.inr ⟨rfl, rfl⟩), hget.trans heq⟩
          · rintro ⟨k, hk, hkf⟩
            rcases getElem?_concat_eq_some_iff.mp hk with hold | ⟨rfl, -⟩
            · exact absurd (List.mem_of_getElem? hold) hmem
            · exact hget.symm.trans hkf
        · rw [Function.update_of_ne hqp, h.pages q hq f', hplace q f' hqp]
      untouched := by
        intro f' hf'
        exact h.untouched f' (by rw [hfree]; exact List.mem_cons_of_mem _ hf')
      touched := by
        intro g hg q hq
        exact List.mem_append_left _ (h.touched g hg q hq)
      loaded := by
        intro g hg i hi
        rw [← h.loaded g hg i hi]
        have hslot : slot (g.address + i) ≠ p := by
          intro heq
          have htouched : g.Touches ((g.address + i) / pageSize) := by
            unfold Segment.Touches pageSize
            omega
          have horder := h.touched g hg _ (Segment.mem_pages.mpr htouched)
          rw [← slot_of_page_lt (h.user _ horder), heq] at horder
          exact hmem horder
        change (Function.update s.pages p (some f) (slot (g.address + i))).map _ = s.read (g.address + i)
        rw [Function.update_of_ne hslot]
        rfl
      stale := by
        intro x hx f' hf' hout
        change Function.update s.pages p (some f) (slot x) = some f' at hf'
        by_cases hslot : slot x = p
        · rw [hslot, Function.update_self] at hf'
          rw [← Option.some.inj hf']
          exact congrFun (h.untouched f (by rw [hfree]; exact List.mem_cons_self)) _
        · rw [Function.update_of_ne hslot] at hf'
          exact h.stale x hx f' hf' hout }

theorem mapPages (h : Holds s₀ order done s) (hps : ∀ p ∈ ps, p < userPages)
    (hroom : (ps.foldl visit order).length ≤ s₀.free.length) :
    ∃ s', run Space.mapPage s (ps.map (· * pageSize)) = .ok s' ∧ Holds s₀ (ps.foldl visit order) done s' := by
  induction ps generalizing s order with
  | nil => exact ⟨s, rfl, h⟩
  | cons p ps ih =>
    rw [List.foldl_cons] at hroom ⊢
    obtain ⟨s₁, hs₁, h₁⟩ := h.mapPage (hps p List.mem_cons_self) ((length_visits_le _ ps).trans hroom)
    rw [List.map_cons, run_cons, hs₁, Exec.ok_bind]
    exact ih h₁ (fun q hq => hps q (List.mem_cons_of_mem p hq)) hroom

end Holds

/-! ### One segment -/

namespace Segment

theorem WellFormed.length_image (h : g.WellFormed) : g.image.length = g.phdr.pMemsz := by
  have hsizes := h.sizes
  unfold image
  rw [List.length_append, length_take_drop h.file, List.length_replicate]
  omega

theorem WellFormed.memoryFits (h : g.WellFormed) (hc : g.Countable) : MemoryFits g.base g.phdr := by
  have hsizes := h.sizes
  have huser := h.user
  unfold Countable address at *
  refine .inr ⟨by omega, ?_, hc⟩
  unfold pageSize
  omega

theorem WellFormed.lt_userPages (h : g.WellFormed) (hp : p ∈ g.pages) : p < userPages := by
  have htouches := mem_pages.mp hp
  have huser := h.user
  unfold Touches userPages userEnd pageSize at *
  omega

/-- The addresses of the loop are those of the pages. -/
theorem WellFormed.segmentPages_eq (h : g.WellFormed) (hbase : g.base % pageSize = 0) (hc : g.Countable) :
    segmentPages g.base g.phdr = g.pages.map (· * pageSize) := by
  have huser := h.user
  have hrequired : segmentAddress g.base g.phdr % pageSize + g.phdr.pMemsz < 2 ^ 63 → _ := pagesRequired_eq hbase
  have hstart := segmentAddress_rounded hbase g.phdr
  unfold Countable at hc
  unfold segmentPages pages
  unfold address userEnd at *
  rw [hrequired (by omega)]
  generalize segmentAddress g.base g.phdr = a at *
  generalize g.phdr.pVaddr / pageSize * pageSize = start at *
  unfold pageSize wrap at *
  rw [min_eq_left (by omega), List.map_map]
  refine List.map_congr_left fun j hj => ?_
  have hj := List.mem_range.mp hj
  have hbounds := wrapInt_bounds ((j : ℤ) * 0x1000)
  generalize wrapInt ((j : ℤ) * 0x1000) = d at *
  unfold intToSize
  rw [Function.comp_apply]
  omega

/-- The pages are mapped, and the image is stored. -/
theorem WellFormed.load_eq (h : g.WellFormed) (hbase : g.base % pageSize = 0) (hc : g.Countable) (s : Space) :
    g.load s = run Space.mapPage s (g.pages.map (· * pageSize)) >>= fun s => .ok (s.putBytes g.address g.image) := by
  obtain ⟨hcopied, hcleared⟩ := (stores_inside_iff hbase).mpr (h.memoryFits hc)
  have hsizes := h.sizes
  have huser := h.user
  unfold load elfProcessLoad
  rw [h.segmentPages_eq hbase hc] at *
  refine congrArg _ (funext fun s₁ => ?_)
  beta_reduce
  rw [readBytes_ok_iff.mpr ⟨h.file, rfl⟩, Exec.ok_bind]
  have hdata : Inside (g.pages.map (· * pageSize)) (wrap (g.base + g.phdr.pVaddr))
      ((g.contents.drop g.phdr.pOffset).take g.phdr.pFilesz).length := by
    rw [length_take_drop h.file]
    exact hcopied
  rw [store_ok hdata, Exec.ok_bind]
  split_ifs with hlt
  · have hzeros : Inside (g.pages.map (· * pageSize)) (wrap (g.base + g.phdr.pVaddr + g.phdr.pFilesz))
        (List.replicate (g.phdr.pMemsz - g.phdr.pFilesz) (0 : BitVec 8)).length := by
      rw [List.length_replicate]
      exact hcleared hlt
    have hbehind : wrap (g.base + g.phdr.pVaddr + g.phdr.pFilesz) = g.address + g.phdr.pFilesz := by
      unfold address segmentAddress userEnd wrap at *
      omega
    rw [store_ok hzeros, image, Space.putBytes_append, length_take_drop h.file, hbehind]
    rfl
  · rw [image, show g.phdr.pMemsz - g.phdr.pFilesz = 0 by omega, List.replicate_zero, List.append_nil]
    rfl

end Segment

namespace Holds

theorem user_of_touched (h : Holds s₀ order done s) (hg : g ∈ done) (hx : g.Covers x) : x < userEnd := by
  have htouched : g.Touches (x / pageSize) := by
    unfold Segment.Touches Segment.Covers pageSize at *
    omega
  have hpage := h.user _ (h.touched g hg _ (Segment.mem_pages.mpr htouched))
  unfold userEnd userPages pageSize at *
  omega

/-- The image of a segment is stored beside the other segments. -/
theorem store (h : Holds s₀ order done s) (hn : s₀.free.Nodup) (hg : g.WellFormed)
    (htouched : ∀ p ∈ g.pages, p ∈ order) (hapart : ∀ k ∈ done, k.Apart g) :
    Holds s₀ order (done ++ [g]) (s.putBytes g.address g.image) := by
  have hlen := hg.length_image
  have huser := hg.user
  have hl : ∀ i < g.image.length, g.address + i < userEnd ∧ (s.pages (slot (g.address + i))).isSome := by
    intro i hi
    have hx : g.address + i < userEnd := by omega
    have htouches : g.Touches ((g.address + i) / pageSize) := by
      unfold Segment.Touches pageSize
      omega
    rw [slot_of_user hx]
    exact ⟨hx, (h.isSome_pages (page_lt hx)).mpr (htouched _ (Segment.mem_pages.mpr htouches))⟩
  have hread : ∀ x < userEnd, ¬g.Covers x → (s.putBytes g.address g.image).read x = s.read x := by
    intro x hx hout
    rw [Space.read_putBytes (h.owned hn) hl hx, if_neg (by rw [hlen]; exact hout)]
  exact {
    user := h.user
    nodup := h.nodup
    room := h.room
    free := by rw [Space.free_putBytes, h.free]
    pages := by
      rw [Space.pages_putBytes]
      exact h.pages
    untouched := by
      intro f hf
      rw [Space.free_putBytes] at hf
      rw [Space.frames_putBytes (fun p hp heq => (h.allocated hn hp heq).2 hf) fun i hi => (hl i hi).1]
      exact h.untouched f hf
    touched := by
      intro k hk p hp
      rcases List.mem_append.mp hk with hk | hk
      · exact h.touched k hk p hp
      · exact htouched p (List.mem_singleton.mp hk ▸ hp)
    loaded := by
      intro k hk i hi
      rcases List.mem_append.mp hk with hk | hk
      · have hcovers : k.Covers (k.address + i) := ⟨by omega, by omega⟩
        rw [hread _ (h.user_of_touched hk hcovers) fun hin => hapart k hk _ ⟨hcovers, hin⟩]
        exact h.loaded k hk i hi
      · rw [List.mem_singleton.mp hk] at hi ⊢
        rw [Space.read_putBytes (h.owned hn) hl (by omega), if_pos (by omega), Nat.add_sub_cancel_left]
    stale := by
      intro x hx f hf hout
      rw [Space.pages_putBytes] at hf
      have hsame := hread x hx (hout g (List.mem_append_right _ (List.mem_singleton_self g)))
      unfold Space.read at hsame
      rw [Space.pages_putBytes, hf] at hsame
      rw [← h.stale x hx f hf fun k hk => hout k (List.mem_append_left _ hk)]
      exact Option.some.inj hsame }

theorem load (h : Holds s₀ order done s) (hn : s₀.free.Nodup) (hg : g.WellFormed) (hbase : g.base % pageSize = 0)
    (hc : g.Countable) (hapart : ∀ k ∈ done, k.Apart g)
    (hroom : (g.pages.foldl visit order).length ≤ s₀.free.length) :
    ∃ s', g.load s = .ok s' ∧ Holds s₀ (g.pages.foldl visit order) (done ++ [g]) s' := by
  obtain ⟨s₁, hs₁, h₁⟩ := h.mapPages (fun p hp => hg.lt_userPages hp) hroom
  rw [hg.load_eq hbase hc, hs₁]
  exact ⟨_, rfl, h₁.store hn hg (fun p hp => mem_visits.mpr (.inr hp)) hapart⟩

/-- All segments are loaded. -/
theorem loads (h : Holds s₀ order done s) (hn : s₀.free.Nodup) (hsegs : ∀ g ∈ segs, g.WellFormed)
    (hbase : ∀ g ∈ segs, g.base % pageSize = 0) (hc : ∀ g ∈ segs, g.Countable)
    (hapart : (done ++ segs).Pairwise Segment.Apart)
    (hroom : ((segs.flatMap Segment.pages).foldl visit order).length ≤ s₀.free.length) :
    ∃ s', run (fun s g => g.load s) s segs = .ok s' ∧
      Holds s₀ ((segs.flatMap Segment.pages).foldl visit order) (done ++ segs) s' := by
  induction segs generalizing s order done with
  | nil =>
    refine ⟨s, rfl, ?_⟩
    rwa [List.append_nil]
  | cons g segs ih =>
    rw [List.flatMap_cons, List.foldl_append] at hroom ⊢
    have hbefore : ∀ k ∈ done, k.Apart g := fun k hk =>
      (List.pairwise_append.mp hapart).2.2 k hk g List.mem_cons_self
    obtain ⟨s₁, hs₁, h₁⟩ := h.load hn (hsegs g List.mem_cons_self) (hbase g List.mem_cons_self)
      (hc g List.mem_cons_self) hbefore ((length_visits_le _ _).trans hroom)
    rw [List.append_cons] at hapart ⊢
    rw [run_cons, hs₁, Exec.ok_bind]
    exact ih h₁ (fun k hk => hsegs k (List.mem_cons_of_mem g hk)) (fun k hk => hbase k (List.mem_cons_of_mem g hk))
      (fun k hk => hc k (List.mem_cons_of_mem g hk)) hapart hroom

end Holds

end DualFuse.Utility.Elf
