import DualFuse.Library.Execution
import Mathlib.Data.BitVec

/-! Strings with a terminator, in buffers of a fixed size. A buffer is the list of its
elements, and the zero of the element type ends the string in it. Copying and appending
stop with a fault where they would leave the buffer. -/

namespace DualFuse.Library.CString

variable {α : Type} [Zero α]

/-- The string in a buffer, up to the terminator. -/
def content [DecidableEq α] (buf : List α) : List α := buf.takeWhile (fun a => a ≠ 0)

/-- The buffer holds the string, terminator included. -/
def Holds (buf str : List α) : Prop := 0 ∉ str ∧ ∃ rest, buf = str ++ 0 :: rest

def strlen [DecidableEq α] (buf : List α) : Exec ℕ :=
  if 0 ∈ buf then .ok (content buf).length else .error .fault

def setAt (buf : List α) (i : ℕ) (a : α) : Exec (List α) :=
  if i < buf.length then .ok (buf.set i a) else .error .fault

/-- `n` elements: those of the string, and terminators after it. -/
def padded (src : List α) (n : ℕ) : List α := src.take n ++ List.replicate (n - src.length) 0

/-- `strncpy(dst + off, src, n)`. -/
def strncpy (dst : List α) (off : ℕ) (src : List α) (n : ℕ) : Exec (List α) :=
  if off + n ≤ dst.length then .ok (dst.take off ++ padded src n ++ dst.drop (off + n)) else .error .fault

/-- `strncat(dst, src, n)`. -/
def strncat [DecidableEq α] (dst src : List α) (n : ℕ) : Exec (List α) := do
  let l ← strlen dst
  if l + (src.take n).length + 1 ≤ dst.length then
    .ok (dst.take l ++ src.take n ++ 0 :: dst.drop (l + (src.take n).length + 1))
  else .error .fault

/-- `strcat(dst, src)`. -/
def strcat [DecidableEq α] (dst src : List α) : Exec (List α) := strncat dst src src.length

/-- `*(buf + i)`. -/
def charAt (buf : List α) (i : ℕ) : Exec α :=
  match buf[i]? with
  | none => .error .fault
  | some a => .ok a

/-- `while (p(buf[i])) i++`. -/
def skipWhile (buf : List α) (p : α → Bool) (i : ℕ) : Exec ℕ :=
  let n := ((buf.drop i).takeWhile p).length
  if i + n < buf.length then .ok (i + n) else .error .fault

/-- `memmove(buf + dst, buf + src, n)`. A negative count is a size beyond every buffer. -/
def memmove (buf : List α) (dst src : ℕ) (n : ℤ) : Exec (List α) :=
  if 0 ≤ n ∧ dst + n.toNat ≤ buf.length ∧ src + n.toNat ≤ buf.length then
    .ok (buf.take dst ++ (buf.drop src).take n.toNat ++ buf.drop (dst + n.toNat))
  else .error .fault

/-- `memcpy(dst + off, src + i, n)` from another buffer. -/
def memcpy (dst : List α) (off : ℕ) (src : List α) (i n : ℕ) : Exec (List α) :=
  if off + n ≤ dst.length ∧ i + n ≤ src.length then
    .ok (dst.take off ++ (src.drop i).take n ++ dst.drop (off + n))
  else .error .fault

/-- `memcmp(s, t, n)`, which returns at the first difference. -/
def memcmp [DecidableEq α] [LT α] [DecidableLT α] : List α → List α → ℕ → Exec ℤ
  | _, _, 0 => .ok 0
  | a :: s, b :: t, n + 1 => if a = b then memcmp s t n else .ok (if a < b then -1 else 1)
  | _, _, _ + 1 => .error .fault

omit [Zero α] in
/-- A copy behind what is in the buffer already. -/
theorem memcpy_append (x y tail src : List α) (i : ℕ) (hy : (src.drop i).take y.length = y)
    (hi : i + y.length ≤ src.length) (hfits : y.length ≤ tail.length) :
    memcpy (x ++ tail) x.length src i y.length = .ok (x ++ y ++ tail.drop y.length) := by
  rw [memcpy, if_pos ⟨by rw [List.length_append]; omega, hi⟩, hy, List.take_left, List.drop_append]
  simp

section Scan
omit [Zero α]
variable {pre mid tail : List α} {c : α} {p : α → Bool}

theorem memcpy_within {dst src dst' : List α} {off i n : ℕ} (h : memcpy dst off src i n = .ok dst') :
    off + n ≤ dst.length ∧ i + n ≤ src.length := by
  by_contra hnot
  rw [memcpy, if_neg hnot] at h
  cases h

theorem charAt_ok_iff {buf : List α} {i : ℕ} : charAt buf i = .ok c ↔ buf[i]? = some c := by
  unfold charAt
  cases buf[i]? <;> simp

theorem charAt_eq {buf : List α} {i : ℕ} (h : i < buf.length) : charAt buf i = .ok buf[i] :=
  charAt_ok_iff.mpr (List.getElem?_eq_getElem h)

theorem lt_of_charAt {buf : List α} {i : ℕ} (h : charAt buf i = .ok c) : i < buf.length :=
  (List.getElem?_eq_some_iff.mp (charAt_ok_iff.mp h)).1

theorem charAt_append : charAt (pre ++ c :: tail) pre.length = .ok c := by
  rw [charAt, List.getElem?_append_right le_rfl, Nat.sub_self, List.getElem?_cons_zero]

/-- The loop stops at the first element that does not pass. -/
theorem skipWhile_append (hmid : ∀ a ∈ mid, p a) (hc : ¬p c) :
    skipWhile (pre ++ (mid ++ c :: tail)) p pre.length = .ok (pre.length + mid.length) := by
  have hrun : ((pre ++ (mid ++ c :: tail)).drop pre.length).takeWhile p = mid := by
    rw [List.drop_left, List.takeWhile_append_of_pos hmid, List.takeWhile_cons_of_neg hc, List.append_nil]
  rw [skipWhile, hrun, if_pos (by simp)]

end Scan

section Compare
variable [DecidableEq α] [LT α] [DecidableLT α]

omit [Zero α] [DecidableEq α] [LT α] [DecidableLT α] in
theorem order_ne_zero (p : Prop) [Decidable p] : (if p then -1 else 1 : ℤ) ≠ 0 := by
  split_ifs <;> decide

omit [Zero α] in
/-- A comparison that stays inside two buffers. -/
theorem memcmp_within {s t : List α} {n : ℕ} (hs : n ≤ s.length) (ht : n ≤ t.length) :
    ∃ z, memcmp s t n = .ok z ∧ (z = 0 ↔ s.take n = t.take n) := by
  induction n generalizing s t with
  | zero => exact ⟨0, by simp [memcmp], by simp⟩
  | succ n ih =>
    obtain ⟨a, s, rfl⟩ := List.exists_cons_of_length_pos (Nat.zero_lt_of_lt hs)
    obtain ⟨b, t, rfl⟩ := List.exists_cons_of_length_pos (Nat.zero_lt_of_lt ht)
    rw [List.take_succ_cons, List.take_succ_cons, List.cons.injEq, memcmp]
    by_cases hab : a = b
    · obtain ⟨z, hz, hzero⟩ := ih (Nat.le_of_succ_le_succ hs) (Nat.le_of_succ_le_succ ht)
      exact ⟨z, by rw [if_pos hab, hz], by rw [hzero, and_iff_right hab]⟩
    · exact ⟨_, if_neg hab, iff_of_false (order_ne_zero _) fun h => hab h.1⟩

omit [Zero α] in
/-- What is found equal is in the buffer. -/
theorem le_of_memcmp_eq_zero {s t : List α} {n : ℕ} (h : memcmp s t n = .ok 0) : n ≤ s.length := by
  induction n generalizing s t with
  | zero => exact Nat.zero_le _
  | succ n ih =>
    cases s with
    | nil => cases t <;> cases h
    | cons a s =>
      cases t with
      | nil => cases h
      | cons b t =>
        rw [memcmp] at h
        by_cases hab : a = b
        · rw [if_pos hab] at h
          exact Nat.succ_le_succ (ih h)
        · rw [if_neg hab] at h
          exact absurd (Except.ok.inj h) (order_ne_zero _)

/-- A comparison of two strings with their terminators stays inside both, if it is not longer
than both strings. -/
theorem memcmp_terminated {s t : List α} {n : ℕ} (hs : 0 ∉ s) (ht : 0 ∉ t) (hn : n ≤ max s.length t.length) :
    ∃ z, memcmp (s ++ [0]) (t ++ [0]) n = .ok z ∧ (z = 0 ↔ s.take n = t.take n) := by
  induction s generalizing t n with
  | nil =>
    cases n with
    | zero => exact ⟨0, by simp [memcmp], by simp⟩
    | succ n =>
      cases t with
      | nil => simp at hn
      | cons b t =>
        have hb : 0 ≠ b := fun hzero => ht (by simp [hzero])
        refine ⟨_, by rw [List.nil_append, List.cons_append, memcmp, if_neg hb], ?_⟩
        simp [order_ne_zero]
  | cons a s ih =>
    cases n with
    | zero => exact ⟨0, by simp [memcmp], by simp⟩
    | succ n =>
      rw [List.mem_cons, not_or] at hs
      cases t with
      | nil =>
        refine ⟨_, by rw [List.nil_append, List.cons_append, memcmp, if_neg (Ne.symm hs.1)], ?_⟩
        simp [order_ne_zero]
      | cons b t =>
        rw [List.mem_cons, not_or] at ht
        by_cases hab : a = b
        · obtain ⟨z, hz, hzero⟩ := ih hs.2 ht.2 (n := n) (by simp only [List.length_cons] at hn; omega)
          refine ⟨z, by rw [List.cons_append, List.cons_append, memcmp, if_pos hab, hz], ?_⟩
          rw [hzero, List.take_succ_cons, List.take_succ_cons, hab, List.cons.injEq, and_iff_right rfl]
        · refine ⟨_, by rw [List.cons_append, List.cons_append, memcmp, if_neg hab], ?_⟩
          simp [order_ne_zero, hab]

end Compare

section Holds
variable {buf str : List α}

theorem Holds.content_eq [DecidableEq α] (h : Holds buf str) : content buf = str := by
  obtain ⟨hzero, rest, rfl⟩ := h
  unfold content
  rw [List.takeWhile_append_of_pos]
  · rw [List.takeWhile_cons_of_neg (by simp), List.append_nil]
  · intro a ha
    simpa using ne_of_mem_of_not_mem ha hzero

theorem holds_content [DecidableEq α] (h : 0 ∈ buf) : Holds buf (content buf) := by
  induction buf with
  | nil => cases h
  | cons a buf ih =>
    unfold content
    by_cases ha : a = 0
    · rw [List.takeWhile_cons_of_neg (by simpa using ha), ha]
      exact ⟨List.not_mem_nil, buf, rfl⟩
    · rw [List.takeWhile_cons_of_pos (by simpa using ha)]
      obtain ⟨hzero, rest, hrest⟩ := ih ((List.mem_cons.mp h).resolve_left fun heq => ha heq.symm)
      refine ⟨fun hmem => (List.mem_cons.mp hmem).elim (fun heq => ha heq.symm) hzero, rest, ?_⟩
      rw [List.cons_append]
      exact congrArg (List.cons a) hrest

theorem holds_zeros (h : 0 ∉ str) {n : ℕ} (hn : 0 < n) : Holds (str ++ List.replicate n 0) str := by
  obtain ⟨m, rfl⟩ : ∃ m, n = m + 1 := ⟨n - 1, by omega⟩
  exact ⟨h, List.replicate m 0, rfl⟩

/-- A buffer holds one string. -/
theorem Holds.unique [DecidableEq α] {str' : List α} (h : Holds buf str) (h' : Holds buf str') : str = str' :=
  h.content_eq.symm.trans h'.content_eq

/-- A terminator is put behind a string. -/
theorem setAt_holds {tail : List α} (h : 0 ∉ str) (htail : 0 < tail.length) :
    ∃ buf, setAt (str ++ tail) str.length 0 = .ok buf ∧ Holds buf str := by
  cases tail with
  | nil => exact absurd htail (lt_irrefl 0)
  | cons a tail =>
    refine ⟨str ++ 0 :: tail, ?_, h, tail, rfl⟩
    rw [setAt, if_pos (by simp), List.set_append_right _ _ (le_refl _), Nat.sub_self]
    rfl

theorem Holds.mem (h : Holds buf str) : 0 ∈ buf := by
  obtain ⟨-, rest, rfl⟩ := h
  simp

theorem Holds.length_lt (h : Holds buf str) : str.length < buf.length := by
  obtain ⟨-, rest, rfl⟩ := h
  simp

theorem Holds.strlen_eq [DecidableEq α] (h : Holds buf str) : strlen buf = .ok str.length := by
  rw [strlen, if_pos h.mem, h.content_eq]

theorem length_padded (src : List α) (n : ℕ) : (padded src n).length = n := by
  simp only [padded, List.length_append, List.length_take, List.length_replicate]
  omega

theorem padded_eq {src : List α} {n : ℕ} (h : src.length ≤ n) :
    padded src n = src ++ List.replicate (n - src.length) 0 := by
  rw [padded, List.take_of_length_le h]

theorem holds_padded {src : List α} {n : ℕ} (hzero : 0 ∉ src) (h : src.length < n) : Holds (padded src n) src := by
  refine ⟨hzero, List.replicate (n - src.length - 1) 0, ?_⟩
  rw [padded_eq h.le, ← List.replicate_succ]
  congr 2
  omega

/-- A copy that fills the buffer. -/
theorem strncpy_whole (dst : List α) {src : List α} {n : ℕ} (hdst : dst.length = n) :
    strncpy dst 0 src n = .ok (padded src n) := by
  rw [strncpy, if_pos (by omega)]
  simp [hdst]

theorem Holds.strncat [DecidableEq α] (h : Holds buf str) {src : List α} {n : ℕ} (hzero : 0 ∉ src) (hn : src.length ≤ n)
    (hfits : str.length + src.length < buf.length) :
    ∃ buf', CString.strncat buf src n = .ok buf' ∧ Holds buf' (str ++ src) ∧ buf'.length = buf.length := by
  have htake : src.take n = src := List.take_of_length_le hn
  unfold CString.strncat
  rw [h.strlen_eq, Exec.ok_bind, htake, if_pos (by omega)]
  refine ⟨_, rfl, ⟨?_, buf.drop (str.length + src.length + 1), ?_⟩, ?_⟩
  · rw [List.mem_append]
    exact fun hmem => hmem.elim h.1 hzero
  · obtain ⟨-, rest, rfl⟩ := h
    rw [List.take_left]
  · simp only [List.length_append, List.length_take, List.length_cons, List.length_drop]
    omega

/-- `strcat` stays in the buffer exactly when there is room for the string and its terminator. -/
theorem Holds.strcat [DecidableEq α] (h : Holds buf str) {src : List α} (hzero : 0 ∉ src)
    (hfits : str.length + src.length < buf.length) :
    ∃ buf', CString.strcat buf src = .ok buf' ∧ Holds buf' (str ++ src) ∧ buf'.length = buf.length :=
  h.strncat hzero le_rfl hfits

theorem Holds.strcat_fault [DecidableEq α] (h : Holds buf str) {src : List α}
    (hfull : buf.length ≤ str.length + src.length) : CString.strcat buf src = .error .fault := by
  rw [CString.strcat, CString.strncat, h.strlen_eq, Exec.ok_bind, List.take_length, if_neg (by omega)]

/-- A character is put in the place of the terminator, and a terminator after it. -/
theorem Holds.push (h : Holds buf str) {a : α} (ha : a ≠ 0) (hfits : str.length + 1 < buf.length) :
    ∃ buf', setAt buf str.length a = .ok buf' ∧ ∃ buf'', setAt buf' (str.length + 1) 0 = .ok buf'' ∧
      Holds buf'' (str ++ [a]) ∧ buf''.length = buf.length := by
  obtain ⟨hzero, rest, rfl⟩ := h
  cases rest with
  | nil => simp at hfits
  | cons b rest =>
    refine ⟨str ++ a :: b :: rest, ?_, str ++ a :: 0 :: rest, ?_, ⟨?_, rest, by simp⟩, by simp⟩
    · rw [setAt, if_pos (by simp), List.set_append_right _ _ (le_refl _), Nat.sub_self]
      rfl
    · rw [setAt, if_pos (by simp), List.set_append_right _ _ (by omega), Nat.add_sub_cancel_left]
      rfl
    · rw [List.mem_append, List.mem_singleton]
      exact fun hmem => hmem.elim hzero fun heq => ha heq.symm

end Holds

/-! ### Buffers whose last element stays a terminator -/

/-- A buffer of `n` elements that holds the string and ends with a terminator. -/
structure Filled (P : α → Prop) (n : ℕ) (buf str : List α) : Prop where
  holds : Holds buf str
  length : buf.length = n
  last : buf.getLast? = some 0
  all : ∀ a ∈ buf, P a

section Filled
variable {P : α → Prop} {n i : ℕ} {buf str : List α}

theorem filled_replicate (hzero : P 0) (n : ℕ) : Filled P (n + 1) (List.replicate (n + 1) 0) [] where
  holds := ⟨List.not_mem_nil, List.replicate n 0, rfl⟩
  length := List.length_replicate
  last := by rw [List.getLast?_replicate, if_neg (Nat.succ_ne_zero n)]
  all a ha := List.eq_of_mem_replicate ha ▸ hzero

theorem Filled.length_lt (h : Filled P n buf str) : str.length < n := h.length ▸ h.holds.length_lt

theorem Filled.zero (h : Filled P n buf str) : P 0 := h.all 0 h.holds.mem

/-- The parts of a buffer around the terminator. -/
theorem Filled.split (h : Filled P n buf str) :
    ∃ rest, buf = str ++ 0 :: rest ∧ str.length + rest.length + 1 = n ∧ (0 :: rest).getLast? = some 0 := by
  obtain ⟨⟨-, rest, rfl⟩, hlength, hlast, -⟩ := h
  refine ⟨rest, rfl, by simpa [Nat.add_assoc] using hlength, ?_⟩
  rwa [List.getLast?_append_of_ne_nil _ (List.cons_ne_nil 0 rest)] at hlast

/-- What is put in front of a tail that ends with a terminator. -/
theorem filled_of_split {rest : List α} (hstr : 0 ∉ str) (hlength : str.length + rest.length + 1 = n)
    (hlast : (0 :: rest).getLast? = some 0) (hall : ∀ a ∈ str ++ 0 :: rest, P a) :
    Filled P n (str ++ 0 :: rest) str where
  holds := ⟨hstr, rest, rfl⟩
  length := by rw [List.length_append, List.length_cons, ← hlength, Nat.add_assoc]
  last := by rw [List.getLast?_append_of_ne_nil _ (List.cons_ne_nil 0 rest), hlast]
  all := hall

/-- The string from a place on. -/
theorem Filled.drop (h : Filled P n buf str) (hi : i ≤ str.length) : Holds (buf.drop i) (str.drop i) := by
  obtain ⟨⟨hzero, rest, rfl⟩, -⟩ := h
  exact ⟨fun hmem => hzero (List.mem_of_mem_drop hmem), rest, List.drop_append_of_le_length hi⟩

/-- A part of the buffer and its terminator are moved to another place. -/
theorem memmove_tail {l r rest : List α} {dst : ℕ} (hdst : dst + r.length + 1 ≤ (l ++ r ++ 0 :: rest).length) :
    memmove (l ++ r ++ 0 :: rest) dst l.length (r.length + 1) =
      .ok ((l ++ r ++ 0 :: rest).take dst ++ (r ++ [0]) ++ (l ++ r ++ 0 :: rest).drop (dst + r.length + 1)) := by
  have hcount : ((r.length : ℤ) + 1).toNat = r.length + 1 := by omega
  have hsrc : l.length + (r.length + 1) ≤ (l ++ r ++ 0 :: rest).length := by
    simp only [List.length_append, List.length_cons]
    omega
  rw [memmove, hcount, if_pos ⟨by omega, by omega, hsrc⟩]
  congr 3
  rw [List.append_assoc, List.drop_left, List.take_append]
  simp

theorem getLast?_zero_cons {x : α} {rest : List α} (h : (0 :: x :: rest).getLast? = some 0) :
    (0 :: rest).getLast? = some 0 := by
  cases rest with
  | nil => rfl
  | cons y rest => simpa [List.getLast?_cons_cons] using h

theorem getLast?_zero_drop (h : buf.getLast? = some 0) (i : ℕ) : (0 :: buf.drop i).getLast? = some 0 := by
  rcases eq_or_ne (buf.drop i) [] with hnil | hnil
  · rw [hnil]
    rfl
  · rw [← List.singleton_append, List.getLast?_append_of_ne_nil _ hnil, List.getLast?_drop, h, if_neg]
    exact fun hle => hnil (List.drop_eq_nil_iff.mpr hle)

/-- A gap is opened and filled. -/
theorem Filled.insert (h : Filled P n buf str) (hi : i ≤ str.length) (hfits : str.length + 1 < n) {a : α} (ha : a ≠ 0)
    (hP : P a) :
    ∃ buf', memmove buf (i + 1) i (str.length - i + 1) = .ok buf' ∧
      ∃ buf'', setAt buf' i a = .ok buf'' ∧ Filled P n buf'' (str.take i ++ a :: str.drop i) := by
  have hzero := h.holds.1
  have hall := h.all
  obtain ⟨rest, rfl, hlength, hlast⟩ := h.split
  obtain ⟨l, r, rfl, rfl⟩ : ∃ l r, str = l ++ r ∧ i = l.length :=
    ⟨str.take i, str.drop i, (List.take_append_drop i str).symm, by rw [List.length_take]; omega⟩
  cases rest with
  | nil => simp at hlength hfits; omega
  | cons x rest =>
    have hcount : ((l ++ r).length : ℤ) - l.length + 1 = r.length + 1 := by simp
    have hgap : ∃ y, (l ++ r ++ 0 :: x :: rest).take (l.length + 1) = l ++ [y] := by
      rw [List.append_assoc, List.take_length_add_append]
      cases r with
      | nil => exact ⟨0, rfl⟩
      | cons y r => exact ⟨y, rfl⟩
    obtain ⟨y, hgap⟩ := hgap
    have hrest : (l ++ r ++ 0 :: x :: rest).drop (l.length + 1 + r.length + 1) = rest := by
      rw [show l.length + 1 + r.length + 1 = (l ++ r).length + 2 by simp; omega, List.drop_length_add_append]
      rfl
    rw [hcount, memmove_tail (by simp; omega), List.take_left, List.drop_left, hgap, hrest]
    refine ⟨_, rfl, l ++ a :: r ++ 0 :: rest, ?_, filled_of_split ?_ ?_ (getLast?_zero_cons hlast) ?_⟩
    · rw [setAt, if_pos (by simp)]
      simp
    · simp only [List.mem_append, List.mem_cons, not_or] at hzero ⊢
      exact ⟨hzero.1, ha.symm, hzero.2⟩
    · simp only [List.length_append, List.length_cons] at hlength ⊢
      omega
    · intro b hb
      simp only [List.mem_append, List.mem_cons] at hb hall
      rcases hb with (hb | rfl | hb) | hb | hb
      · exact hall b (.inl (.inl hb))
      · exact hP
      · exact hall b (.inl (.inr hb))
      · exact hall b (.inr (.inl hb))
      · exact hall b (.inr (.inr (.inr hb)))

/-- The character before a place is removed. -/
theorem Filled.delete (h : Filled P n buf str) (hpos : 0 < i) (hi : i ≤ str.length) :
    ∃ buf', memmove buf (i - 1) i (str.length - i + 1) = .ok buf' ∧
      Filled P n buf' (str.take (i - 1) ++ str.drop i) := by
  have hzero := h.holds.1
  have hall := h.all
  obtain ⟨rest, rfl, hlength, hlast⟩ := h.split
  obtain ⟨l, x, r, rfl, rfl⟩ : ∃ l x r, str = l ++ [x] ++ r ∧ i = l.length + 1 := by
    refine ⟨str.take (i - 1), str[i - 1], str.drop i, ?_, by rw [List.length_take]; omega⟩
    rw [List.append_assoc, List.singleton_append, show str.drop i = str.drop (i - 1 + 1) by congr; omega,
      ← List.drop_eq_getElem_cons, List.take_append_drop]
  have hlen : (l ++ [x]).length = l.length + 1 := by simp
  have hcount : ((l ++ [x] ++ r).length : ℤ) - (l.length + 1 : ℕ) + 1 = r.length + 1 := by simp
  have hrest : (l ++ [x] ++ r ++ 0 :: rest).drop (l.length + r.length + 1) = 0 :: rest := by
    rw [show l.length + r.length + 1 = (l ++ [x] ++ r).length by simp; omega, List.drop_left]
  have hleft : (l ++ [x] ++ r ++ 0 :: rest).take l.length = l := by simp
  rw [hcount, ← hlen, memmove_tail (by simp), hlen, Nat.add_sub_cancel, hleft, hrest]
  refine ⟨l ++ r ++ 0 :: 0 :: rest, by simp, ?_⟩
  have htake : (l ++ [x] ++ r).take l.length = l := by simp
  have hdrop : (l ++ [x] ++ r).drop (l.length + 1) = r := by rw [← hlen, List.drop_left]
  rw [htake, hdrop]
  refine filled_of_split ?_ ?_ ?_ ?_
  · simp only [List.mem_append, not_or] at hzero ⊢
    exact ⟨hzero.1.1, hzero.2⟩
  · simp only [List.length_append, List.length_cons, List.length_nil] at hlength ⊢
    omega
  · rwa [List.getLast?_cons_cons]
  · intro b hb
    simp only [List.mem_append, List.mem_cons] at hb hall
    rcases hb with (hb | hb) | rfl | rfl | hb
    · exact hall b (.inl (.inl (.inl hb)))
    · exact hall b (.inl (.inr hb))
    · exact h.zero
    · exact h.zero
    · exact hall b (.inr (.inr hb))

theorem Filled.cut (h : Filled P n buf str) (hi : i ≤ str.length) :
    ∃ buf', setAt buf i 0 = .ok buf' ∧ Filled P n buf' (str.take i) := by
  have hlt : i < buf.length := lt_of_le_of_lt hi h.holds.length_lt
  have hlength := h.length
  have hset : buf.set i 0 = str.take i ++ 0 :: buf.drop (i + 1) := by
    obtain ⟨⟨-, rest, rfl⟩, -⟩ := h
    rw [List.set_eq_take_append_cons_drop, if_pos hlt, List.take_append_of_le_length hi]
  refine ⟨buf.set i 0, by rw [setAt, if_pos hlt], ?_⟩
  rw [hset]
  refine filled_of_split (fun hmem => h.holds.1 (List.mem_of_mem_take hmem)) ?_ (getLast?_zero_drop h.last _) ?_
  · rw [List.length_take, List.length_drop]
    omega
  · rw [← hset]
    intro b hb
    rcases List.mem_or_eq_of_mem_set hb with hb | rfl
    · exact h.all b hb
    · exact h.zero

/-- A string is copied over all but the last element. -/
theorem Filled.copy (h : Filled P (n + 1) buf str) {src : List α} (hsrc : 0 ∉ src) (hlength : src.length ≤ n)
    (hall : ∀ a ∈ src, P a) : ∃ buf', strncpy buf 0 src n = .ok buf' ∧ Filled P (n + 1) buf' src := by
  have hlast : buf.drop n = [0] := by
    obtain ⟨body, rfl⟩ := List.getLast?_eq_some_iff.mp h.last
    have hbody : body.length = n := by simpa using h.length
    rw [← hbody, List.drop_left]
  rw [strncpy, if_pos (by rw [h.length]; omega), List.take_zero, List.nil_append, Nat.zero_add, hlast,
    padded_eq hlength]
  have hzeros : src ++ List.replicate (n - src.length) 0 ++ [0] = src ++ 0 :: List.replicate (n - src.length) 0 := by
    rw [List.append_assoc, ← List.replicate_succ', List.replicate_succ]
  refine ⟨_, rfl, hzeros ▸ filled_of_split hsrc ?_ ?_ ?_⟩
  · rw [List.length_replicate]
    omega
  · rw [← List.replicate_succ, List.getLast?_replicate, if_neg (Nat.succ_ne_zero _)]
  · intro b hb
    rw [← List.replicate_succ, List.mem_append] at hb
    rcases hb with hb | hb
    · exact hall b hb
    · exact List.eq_of_mem_replicate hb ▸ h.zero

theorem Filled.append [DecidableEq α] (h : Filled P n buf str) {src : List α} {m : ℕ} (hsrc : 0 ∉ src)
    (hm : src.length ≤ m) (hfits : str.length + src.length < n) (hall : ∀ a ∈ src, P a) :
    ∃ buf', CString.strncat buf src m = .ok buf' ∧ Filled P n buf' (str ++ src) := by
  have hlength := h.length
  have htake : buf.take str.length = str := by
    obtain ⟨⟨-, rest, rfl⟩, -⟩ := h
    exact List.take_left
  rw [CString.strncat, h.holds.strlen_eq, Exec.ok_bind, List.take_of_length_le hm, if_pos (by omega), htake]
  refine ⟨_, rfl, filled_of_split ?_ ?_ (getLast?_zero_drop h.last _) ?_⟩
  · rw [List.mem_append]
    exact fun hmem => hmem.elim h.holds.1 hsrc
  · rw [List.length_append, List.length_drop]
    omega
  · intro b hb
    rw [List.mem_append, List.mem_append, List.mem_cons] at hb
    rcases hb with (hb | hb) | rfl | hb
    · rw [← htake] at hb
      exact h.all b (List.mem_of_mem_take hb)
    · exact hall b hb
    · exact h.zero
    · exact h.all b (List.mem_of_mem_drop hb)

/-- Any element but the last may be overwritten, and the last with a terminator. -/
theorem Filled.setAt [DecidableEq α] (h : Filled P n buf str) {a : α} (hi : i < n) (hlast : a = 0 ∨ i + 1 < n)
    (hP : P a) : ∃ buf', CString.setAt buf i a = .ok buf' ∧ Filled P n buf' (content buf') := by
  have hlength := h.length
  have hend : (buf.set i a).getLast? = some 0 := by
    rw [List.getLast?_eq_getElem?, List.length_set, List.getElem?_set]
    have hold := h.last
    rw [List.getLast?_eq_getElem?] at hold
    split_ifs with heq hlt
    · rw [hlast.resolve_right (by omega)]
    · omega
    · exact hold
  refine ⟨buf.set i a, by rw [CString.setAt, if_pos (by omega)], ?_⟩
  exact
    { holds := holds_content (List.mem_of_getLast? hend)
      length := by rw [List.length_set, hlength]
      last := hend
      all := fun b hb => (List.mem_or_eq_of_mem_set hb).elim (h.all b) fun heq => heq ▸ hP }

end Filled

end DualFuse.Library.CString
