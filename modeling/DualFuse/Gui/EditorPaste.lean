import Mathlib.Data.List.TakeWhile
import DualFuse.Gui.EditorText

/-! Copy All, Clear and Paste (`GUI/text_editor.cpp`). The clipboard takes every document that the
buffer holds. Pasting types it, byte by byte, and so loses the bytes that are no characters when
they are typed, while a file may bring them. -/

namespace DualFuse.Gui

open Library Library.CString Utility

namespace XPTextEditor

/-- The three items of the menu, one after the other. -/
def copyClearPaste (d : Display) (e : XPTextEditor) (clipboard : Clipboard) : Exec XPTextEditor := do
  let (e, clipboard) ← e.executeContextMenuAction d clipboard 1
  let (e, clipboard) ← e.executeContextMenuAction d clipboard 3
  let (e, _) ← e.executeContextMenuAction d clipboard 2
  .ok e

/-- The three items leave these lines. -/
def Leaves (d : Display) (e : XPTextEditor) (clipboard : Clipboard) (lines : List (List Byte)) : Prop :=
  ∃ e', e.copyClearPaste d clipboard = .ok e' ∧ e'.lines = lines

/-- The lines of a file behind the part of a line: no carriage returns, and of each line the first 255
bytes. -/
def fileLinesFrom (part : List Byte) : List Byte → List (List Byte)
  | [] => [part]
  | b :: bytes =>
    if b = newline then part :: fileLinesFrom [] bytes
    else if b ≠ carriageReturn ∧ part.length < maxLineLength - 1 then fileLinesFrom (part ++ [b]) bytes
    else fileLinesFrom part bytes

def fileLines (bytes : List Byte) : List (List Byte) := fileLinesFrom [] bytes

/-- Bytes that are typed as they are. -/
def Typable (lines : List (List Byte)) : Prop := ∀ l ∈ lines, ∀ b ∈ l, 0x20 ≤ b.toNat

instance (lines : List (List Byte)) : Decidable (Typable lines) :=
  inferInstanceAs (Decidable (∀ l ∈ lines, ∀ b ∈ l, 0x20 ≤ b.toNat))

section Copying
variable {e : XPTextEditor}

theorem lines_eq_linesFrom (e : XPTextEditor) : e.lines = linesFrom e.text 0 e.totalLineCount := by
  rw [lines, List.range_eq_range', linesFrom]

theorem length_lines (e : XPTextEditor) : e.lines.length = e.totalLineCount := by
  rw [lines_eq_linesFrom, length_linesFrom]

/-- A line is copied whole, since the clipboard is as large as the buffer. -/
theorem copyLines_next (h : e.Sane) {i : ℕ} (hi : i < maxLines) {written : List Byte}
    (hwritten : written.length ≤ maxLineLength * i) (n : ℕ) :
    e.copyLines (n + 1) i written = e.copyLines n (i + 1)
      (if i < e.totalLineCount - 1 ∧ (written ++ e.text i).length < clipboardCapacity then
        written ++ e.text i ++ [newline] else written ++ e.text i) := by
  have hlength := h.length_lt hi
  obtain ⟨rest, hrow⟩ := (h.rows i hi).holds.2
  have hroom : written.length + (e.text i).length ≤ clipboardCapacity ∧ written.length < clipboardCapacity := by
    unfold clipboardCapacity maxLineLength maxLines at *
    omega
  have hmin : min (e.text i).length (clipboardCapacity - written.length) = (e.text i).length := by omega
  have htaken : (e.lineBuffer i).take (e.text i).length = e.text i := by
    rw [hrow, List.take_left]
  rw [copyLines, line_of_lt hi, Exec.ok_bind, h.strlen_row hi, Exec.ok_bind, if_neg (not_le.mpr hroom.2), hmin,
    htaken]

theorem length_next (h : e.Sane) {i : ℕ} (hi : i < maxLines) {written : List Byte}
    (hwritten : written.length ≤ maxLineLength * i) :
    (written ++ e.text i ++ [newline]).length ≤ maxLineLength * (i + 1) := by
  have hlength := h.length_lt hi
  rw [List.length_append, List.length_append, List.length_singleton, Nat.mul_succ]
  omega

theorem copyLines_succ (h : e.Sane) (hfits : e.totalLineCount ≤ maxLines) {i : ℕ} (hi : i < e.totalLineCount)
    {written : List Byte} (hwritten : written.length ≤ maxLineLength * i) (n : ℕ) :
    e.copyLines (n + 1) i written = e.copyLines n (i + 1)
      (if i < e.totalLineCount - 1 then written ++ e.text i ++ [newline] else written ++ e.text i) := by
  have hlt : i < maxLines := hi.trans_le hfits
  rw [copyLines_next h hlt hwritten]
  congr 1
  by_cases hlast : i < e.totalLineCount - 1
  · have hnext := length_next h hlt hwritten
    have hbreak : (written ++ e.text i).length < clipboardCapacity := by
      rw [List.length_append, List.length_singleton] at hnext
      unfold clipboardCapacity maxLineLength maxLines at *
      omega
    rw [if_pos ⟨hlast, hbreak⟩, if_pos hlast]
  · rw [if_neg fun hboth => hlast hboth.1, if_neg hlast]

/-- Every line is followed by a break but the last. -/
theorem copyLines_eq (h : e.Sane) (hfits : e.totalLineCount ≤ maxLines) {n i : ℕ}
    (hn : i + (n + 1) = e.totalLineCount) {written : List Byte} (hwritten : written.length ≤ maxLineLength * i) :
    e.copyLines (n + 1) i written = .ok (written ++ [newline].intercalate (linesFrom e.text i (n + 1))) := by
  induction n generalizing i written with
  | zero =>
    have hone : [newline].intercalate (linesFrom e.text i (0 + 1)) = e.text i := by
      rw [linesFrom_succ, FlatText.intercalate_cons]
      exact List.append_nil _
    rw [copyLines_succ h hfits (by omega) hwritten, if_neg (by omega), hone]
    rfl
  | succ n ih =>
    have hnext := length_next h (by omega : i < maxLines) hwritten
    rw [copyLines_succ h hfits (by omega) hwritten, if_pos (by omega), ih (by omega) hnext, linesFrom_succ,
      FlatText.intercalate_cons, linesFrom_succ, FlatText.intercalate_cons, linesFrom_succ, FlatText.startLines_cons]
    simp

/-- The clipboard holds the joined lines. -/
theorem copy_eq (h : e.Sane) (hfits : e.totalLineCount ≤ maxLines) :
    e.copyLines e.totalLineCount 0 [] = .ok ([newline].intercalate e.lines) := by
  obtain ⟨n, hn⟩ : ∃ n, e.totalLineCount = n + 1 := ⟨e.totalLineCount - 1, by have := h.count_pos; omega⟩
  rw [lines_eq_linesFrom, hn]
  exact copyLines_eq h hfits (by omega) (Nat.zero_le _)

/-- In a document that is too long, a row is read that does not exist. -/
theorem copyLines_fault (h : e.Sane) {n i : ℕ} (hn : maxLines < i + n) (hi : i ≤ maxLines) {written : List Byte}
    (hwritten : written.length ≤ maxLineLength * i) : e.copyLines n i written = .error .fault := by
  induction n generalizing i written with
  | zero => omega
  | succ n ih =>
    rcases hi.lt_or_eq with hlt | rfl
    · have hnext := length_next h hlt hwritten
      rw [copyLines_next h hlt hwritten]
      apply ih (by omega) hlt
      split_ifs
      · exact hnext
      · rw [List.length_append, List.length_singleton] at hnext
        exact Nat.le_of_succ_le hnext
    · rw [copyLines, line_of_ge le_rfl]
      rfl

end Copying

/-! ### Typing at the end -/

/-- The document has these lines, and the cursor is at its end. -/
structure Typed (e : XPTextEditor) (done : List (List Byte)) (part : List Byte) : Prop where
  sane : e.Sane
  lines : e.lines = done ++ [part]
  line_eq : e.cursorLineIndex = done.length
  column_eq : e.cursorColumnIndex = part.length

section Typing
variable {e : XPTextEditor} {done : List (List Byte)} {part : List Byte} {c : Byte}

theorem Typed.count_eq (h : e.Typed done part) : e.totalLineCount = done.length + 1 := by
  rw [← length_lines, h.lines, List.length_append, List.length_singleton]

/-- The lines around the cursor. -/
theorem Typed.parts (h : e.Typed done part) : e.above = done ∧ e.current = part ∧ e.below = [] := by
  have hsplit : e.above ++ e.current :: e.below = done ++ [part] := by
    rw [← h.lines, lines_eq_linesFrom]
    exact (linesFrom_split h.sane.cursor_lt).symm
  obtain ⟨habove, hrest⟩ := List.append_inj hsplit (length_above.trans h.line_eq)
  exact ⟨habove, List.cons.inj hrest⟩

theorem Typed.deselect (h : e.Typed done part) (c : Byte) : (e.deselect c).Typed done part := by
  have hsane := h.sane.deselect c
  unfold XPTextEditor.deselect at hsane ⊢
  split_ifs at hsane ⊢
  · exact ⟨hsane, h.lines, h.line_eq, h.column_eq⟩
  · exact h

theorem Typed.scrolled (h : e.Typed done part) (d : Display) : (scrollToKeepCursorVisible d e).Typed done part :=
  ⟨h.sane.scrolled d, h.lines, h.line_eq, h.column_eq⟩

theorem applyKey_character (hc : 0x20 ≤ c.toNat) (e : XPTextEditor) :
    e.applyKey c = (do
      let length ← e.currentLineLength
      if length ≥ maxLineLength - 1 then .ok none else some <$> e.insertCharacter c) := by
  have hne : ∀ b : Byte, b.toNat < 0x20 → c ≠ b := by
    rintro b hb rfl
    exact absurd hc (not_le.mpr hb)
  unfold applyKey
  rw [if_neg (hne newline (by decide)), if_neg (hne backspace (by decide)), if_neg (hne arrowUp (by decide)),
    if_neg (hne arrowDown (by decide)), if_neg (hne arrowLeft (by decide)), if_neg (hne arrowRight (by decide)),
    if_pos hc]

/-- A character is put at the end of the last line. -/
theorem Typed.character (h : e.Typed done part) (d : Display) (hc : 0x20 ≤ c.toNat) (hlines : done.length < maxLines)
    (hpart : part.length < maxLineLength - 1) :
    ∃ e', e.handleKeyInput d c = .ok e' ∧ e'.Typed done (part ++ [c]) := by
  have hd := h.deselect c
  have hfits : (e.deselect c).totalLineCount ≤ maxLines := by
    rw [hd.count_eq]
    exact hlines
  obtain ⟨habove, hcurrent, hbelow⟩ := hd.parts
  have htext : (e.deselect c).text (e.deselect c).cursorLineIndex = part := hcurrent
  have hcursor := cursor_lt_maxLines hd.sane hfits
  have hroom : ((e.deselect c).text (e.deselect c).cursorLineIndex).length < maxLineLength - 1 := by
    rw [htext]
    exact hpart
  obtain ⟨e', he', hshows⟩ := ok_of_meets hfits (insertCharacter_meets hd.sane hc fun _ => hroom)
  have hsane : e'.Sane := (Exec.meets_iff.mp (insertCharacter_follows hd.sane hc fun _ => hroom)).1 e' he' |>.sane
  have hlinesEq := lines_of_update hd.sane hfits hshows
  rw [htext, hd.column_eq, List.take_length, List.drop_length, habove, hbelow] at hlinesEq
  refine ⟨scrollToKeepCursorVisible d e', ?_, Typed.scrolled ⟨hsane, hlinesEq, ?_, ?_⟩ d⟩
  · have hcount : (e.deselect c).currentLineLength =
        .ok ((e.deselect c).text (e.deselect c).cursorLineIndex).length := by
      rw [currentLineLength, line_of_lt hcursor, Exec.ok_bind, hd.sane.strlen_row hcursor]
    rw [handleKeyInput, applyKey_character hc, hcount, Exec.ok_bind, if_neg (not_le.mpr hroom), he']
    rfl
  · rw [hshows.line_eq, hd.line_eq]
  · rw [hshows.column_eq, hd.column_eq, List.length_append, List.length_singleton]

/-- A new line is begun. -/
theorem Typed.break (h : e.Typed done part) (d : Display) (hlines : done.length + 1 < maxLines) :
    ∃ e', e.handleKeyInput d newline = .ok e' ∧ e'.Typed (done ++ [part]) [] := by
  have hd := h.deselect newline
  have hroom : (e.deselect newline).totalLineCount < maxLines := by
    rw [hd.count_eq]
    exact hlines
  obtain ⟨habove, hcurrent, hbelow⟩ := hd.parts
  obtain ⟨e', he', hshows⟩ := Exec.meets_false_iff.mp (splitLine_meets hd.sane hroom)
  have hsane : e'.Sane := (Exec.meets_iff.mp (splitLine_follows hd.sane hroom)).1 e' he' |>.sane
  have hlinesEq := lines_splitLine hd.sane hroom hshows
  rw [before, after, hcurrent, hd.column_eq, List.take_length, List.drop_length, habove, hbelow] at hlinesEq
  refine ⟨scrollToKeepCursorVisible d e', ?_, Typed.scrolled ⟨hsane, ?_, ?_, ?_⟩ d⟩
  · rw [handleKeyInput, applyKey, if_pos rfl, if_neg (not_le.mpr hroom), he']
    rfl
  · rw [hlinesEq, List.append_assoc]
    rfl
  · rw [hshows.line_eq, hd.line_eq, List.length_append, List.length_singleton]
  · exact hshows.column_eq

/-- The bytes of a line are put behind each other. -/
theorem Typed.line (h : e.Typed done part) (d : Display) {l : List Byte} (hl : ∀ b ∈ l, 0x20 ≤ b.toNat)
    (hlines : done.length < maxLines) (hlength : (part ++ l).length < maxLineLength) :
    ∃ e', run (handleKeyInput d) e l = .ok e' ∧ e'.Typed done (part ++ l) := by
  induction l generalizing e part with
  | nil =>
    rw [List.append_nil]
    exact ⟨e, rfl, h⟩
  | cons b l ih =>
    rw [List.length_append, List.length_cons] at hlength
    obtain ⟨e₁, he₁, h₁⟩ := h.character d (hl b List.mem_cons_self) hlines (by omega)
    have hrest : (part ++ [b] ++ l).length < maxLineLength := by
      simp only [List.length_append, List.length_singleton]
      omega
    obtain ⟨e', he', h'⟩ := ih h₁ (fun b hb => hl b (List.mem_cons_of_mem _ hb)) hrest
    rw [List.append_assoc, List.singleton_append] at h'
    exact ⟨e', by rw [run_cons, he₁, Exec.ok_bind, he'], h'⟩

/-- The lines are put below each other. -/
theorem Typed.lines_below (h : e.Typed done part) (d : Display) {below : List (List Byte)} (hbelow : Typable below)
    (hlines : done.length + 1 + below.length ≤ maxLines) (hlength : ∀ l ∈ below, l.length < maxLineLength) :
    ∃ e', run (handleKeyInput d) e (FlatText.startLines newline below) = .ok e' ∧
      e'.lines = done ++ part :: below := by
  induction below generalizing e done part with
  | nil => exact ⟨e, rfl, h.lines⟩
  | cons l below ih =>
    rw [List.length_cons] at hlines
    obtain ⟨e₁, he₁, h₁⟩ := h.break d (by omega)
    have hdone : (done ++ [part]).length = done.length + 1 := by rw [List.length_append, List.length_singleton]
    obtain ⟨e₂, he₂, h₂⟩ := h₁.line d (hbelow l List.mem_cons_self) (by omega) (hlength l List.mem_cons_self)
    obtain ⟨e', he', hlinesEq⟩ := ih h₂ (fun l hl => hbelow l (List.mem_cons_of_mem _ hl)) (by omega)
      (fun l hl => hlength l (List.mem_cons_of_mem _ hl))
    refine ⟨e', ?_, ?_⟩
    · rw [FlatText.startLines_cons, run_cons, he₁, Exec.ok_bind, run_append, he₂, Exec.ok_bind, he']
    · rw [hlinesEq, List.append_assoc]
      rfl

end Typing

/-! ### What typing can add -/

/-- A byte that may add to the text when it is typed. -/
def Adds (c : Byte) : Prop := c = newline ∨ 0x20 ≤ c.toNat

instance (c : Byte) : Decidable (Adds c) := inferInstanceAs (Decidable (_ ∨ _))

section Flat
variable (t : FlatText Byte)

theorem length_insert (a : Byte) : (t.insert a).text.length ≤ t.text.length + 1 := by
  simp only [FlatText.insert, List.length_append, List.length_cons, List.length_take, List.length_drop]
  omega

theorem length_delete : t.delete.text.length ≤ t.text.length := by
  simp only [FlatText.delete, List.length_append, List.length_take, List.length_drop]
  omega

theorem text_up : (t.up newline).text = t.text := by
  unfold FlatText.up
  dsimp only
  split_ifs <;> rfl

theorem text_down : (t.down newline).text = t.text := by
  unfold FlatText.down
  dsimp only
  split_ifs <;> rfl

/-- A key adds one byte at most. -/
theorem length_flatKey (c : Byte) : (flatKey t c).text.length ≤ t.text.length + if Adds c then 1 else 0 := by
  unfold flatKey
  by_cases hbreak : c = newline
  · have hadds : Adds c := .inl hbreak
    rw [if_pos hbreak, if_pos hadds]
    exact length_insert t newline
  rw [if_neg hbreak]
  by_cases hprint : 0x20 ≤ c.toNat
  · have hadds : Adds c := .inr hprint
    have hne : ∀ b : Byte, b.toNat < 0x20 → c ≠ b := by
      rintro b hb rfl
      exact absurd hprint (not_le.mpr hb)
    rw [if_neg (hne backspace (by decide)), if_neg (hne arrowUp (by decide)), if_neg (hne arrowDown (by decide)),
      if_neg (hne arrowLeft (by decide)), if_neg (hne arrowRight (by decide)), if_pos hprint, if_pos hadds]
    exact length_insert t c
  · have hadds : ¬ Adds c := not_or.mpr ⟨hbreak, hprint⟩
    rw [if_neg hadds, Nat.add_zero]
    split_ifs
    · exact length_delete t
    · exact (congrArg List.length (text_up t)).le
    · exact (congrArg List.length (text_down t)).le
    · exact le_rfl
    · exact le_rfl
    · exact le_rfl

end Flat

section Adding
variable {e : XPTextEditor}

/-- The length of the joined lines. -/
def size (e : XPTextEditor) : ℕ := e.flat.text.length

theorem size_eq (e : XPTextEditor) : e.size = ([newline].intercalate e.lines).length := rfl

theorem joinLines_refused (h : e.Sane) (hfits : e.totalLineCount ≤ maxLines)
    (hlong : ¬(e.text (e.cursorLineIndex - 1)).length + (e.text e.cursorLineIndex).length < maxLineLength - 1) :
    e.joinLines = .ok e := by
  have hcursor := cursor_lt_maxLines h hfits
  have hprevious : e.cursorLineIndex - 1 < maxLines := by omega
  rw [joinLines, line_of_lt hprevious, Exec.ok_bind, line_of_lt hcursor, Exec.ok_bind, h.strlen_row hprevious,
    Exec.ok_bind, h.strlen_row hcursor, Exec.ok_bind, if_neg hlong]

/-- Where a limit is hit nothing is done. -/
theorem applyKey_refused (h : e.Sane) (hfits : e.totalLineCount ≤ maxLines) {c : Byte}
    (hlimits : ¬ e.WithinLimits c) :
    e.applyKey c = .ok none ∨ e.applyKey c = .ok (some e) := by
  by_cases hbreak : c = newline
  · subst hbreak
    have hfull : maxLines ≤ e.totalLineCount := by
      by_contra hroom
      exact hlimits ⟨hfits, fun _ => not_le.mp hroom, fun hback => absurd hback (by decide), fun hprint =>
        absurd hprint (by decide)⟩
    left
    rw [applyKey, if_pos rfl, if_pos hfull]
  by_cases hback : c = backspace
  · subst hback
    obtain ⟨hcolumn, hline, hlong⟩ : e.cursorColumnIndex = 0 ∧ 0 < e.cursorLineIndex ∧
        ¬(e.text (e.cursorLineIndex - 1)).length + (e.text e.cursorLineIndex).length < maxLineLength - 1 := by
      by_contra hshort
      refine hlimits ⟨hfits, fun h => absurd h hbreak, fun _ hcolumn hline => ?_, fun hprint =>
        absurd hprint (by decide)⟩
      by_contra hlong
      exact hshort ⟨hcolumn, hline, hlong⟩
    right
    rw [applyKey, if_neg hbreak, if_pos rfl, if_neg (by omega), if_pos hline, joinLines_refused h hfits hlong]
    rfl
  by_cases hprint : 0x20 ≤ c.toNat
  · have hcursor := cursor_lt_maxLines h hfits
    have hfull : maxLineLength - 1 ≤ (e.text e.cursorLineIndex).length := by
      by_contra hroom
      exact hlimits ⟨hfits, fun h => absurd h hbreak, fun h => absurd h hback, fun _ => not_le.mp hroom⟩
    have hcount : e.currentLineLength = .ok (e.text e.cursorLineIndex).length := by
      rw [currentLineLength, line_of_lt hcursor, Exec.ok_bind, h.strlen_row hcursor]
    left
    rw [applyKey_character hprint, hcount, Exec.ok_bind, if_pos hfull]
  · exact absurd ⟨hfits, fun h => absurd h hbreak, fun h => absurd h hback, fun h => absurd h hprint⟩ hlimits

theorem withinLimits_deselect (c : Byte) (h : (e.deselect c).WithinLimits c) : e.WithinLimits c := by
  unfold XPTextEditor.deselect at h
  split_ifs at h
  · exact ⟨h.document, h.line, h.join, h.character⟩
  · exact h

theorem size_handleKeyInput (h : e.Sane) (hfits : e.totalLineCount ≤ maxLines) (d : Display) (c : Byte) :
    ∃ e', e.handleKeyInput d c = .ok e' ∧ e.Follows e' ∧ e'.size ≤ e.size + if Adds c then 1 else 0 := by
  obtain ⟨e', he', hfollows⟩ := ok_of_meets hfits (handleKeyInput_follows h d c)
  refine ⟨e', he', hfollows, ?_⟩
  by_cases hlimits : e.WithinLimits c
  · obtain ⟨e₁, he₁, hflat⟩ := flat_handleKeyInput h d hlimits
    rw [he'] at he₁
    cases he₁
    rw [size, hflat]
    exact length_flatKey _ _
  · have hdfits : (e.deselect c).totalLineCount ≤ maxLines := by
      have hover := (overfull_deselect (e := e) c).not.mpr (not_lt.mpr hfits)
      exact not_lt.mp hover
    have hsame : e'.flat = e.flat := by
      have hdlimits : ¬ (e.deselect c).WithinLimits c := fun hwithin => hlimits (withinLimits_deselect c hwithin)
      rcases applyKey_refused (h.deselect c) hdfits hdlimits with hkey | hkey
      · rw [handleKeyInput, hkey] at he'
        cases he'
        exact flat_deselect c
      · rw [handleKeyInput, hkey] at he'
        cases he'
        exact flat_deselect c
    rw [size, hsame]
    exact Nat.le_add_right _ _

theorem size_paste (h : e.Sane) (hfits : e.totalLineCount ≤ maxLines) (d : Display) (l : List Byte) :
    ∃ e', run (handleKeyInput d) e l = .ok e' ∧ e'.size ≤ e.size + l.countP fun c => Adds c := by
  induction l generalizing e with
  | nil => exact ⟨e, rfl, le_rfl⟩
  | cons c l ih =>
    obtain ⟨e₁, he₁, hfollows, hsize⟩ := size_handleKeyInput h hfits d c
    have hstill : e₁.totalLineCount ≤ maxLines :=
      not_lt.mp fun hover => absurd (hfollows.overfull hover) (not_lt.mpr hfits)
    obtain ⟨e', he', hrest⟩ := ih hfollows.sane hstill
    refine ⟨e', by rw [run_cons, he₁, Exec.ok_bind, he'], ?_⟩
    rw [List.countP_cons]
    simp only [decide_eq_true_eq]
    omega

end Adding

/-! ### Where the lines come back -/

section Restoring
variable {e : XPTextEditor}

theorem sane_clear (e : XPTextEditor) : e.clear.Sane := sane_of_blank rfl rfl rfl rfl rfl

theorem lines_clear (e : XPTextEditor) : e.clear.lines = [[]] := by
  have htext : content blankLine = ([] : List Byte) := rowHolds_blankLine.content_eq
  exact congrArg (fun l => [l]) htext

theorem typed_clear (e : XPTextEditor) : e.clear.Typed [] [] := ⟨sane_clear e, lines_clear e, rfl, rfl⟩

/-- What the three items do to a document that the buffer holds. -/
theorem copyClearPaste_eq (h : e.Sane) (hfits : e.totalLineCount ≤ maxLines) (d : Display) (clipboard : Clipboard) :
    e.copyClearPaste d clipboard = run (handleKeyInput d) e.clear ([newline].intercalate e.lines) := by
  have hcopy : e.executeContextMenuAction d clipboard 1 =
      .ok (e, ⟨[newline].intercalate e.lines, decide (([newline].intercalate e.lines).length > 0)⟩) := by
    rw [executeContextMenuAction, if_neg (by decide), if_pos rfl, copy_eq h hfits]
    rfl
  have hclear : ∀ c, e.executeContextMenuAction d c 3 = .ok (e.clear, c) := by
    intro c
    rw [executeContextMenuAction, if_neg (by decide), if_neg (by decide), if_neg (by decide), if_pos rfl]
  rw [copyClearPaste, hcopy, Exec.ok_bind]
  dsimp only
  rw [hclear, Exec.ok_bind]
  dsimp only
  rw [executeContextMenuAction, if_neg (by decide), if_neg (by decide), if_pos rfl]
  dsimp only
  cases [newline].intercalate e.lines with
  | nil => rfl
  | cons b text =>
    have hcontains : decide ((b :: text).length > 0) = true := decide_eq_true (Nat.succ_pos _)
    rw [if_pos hcontains]
    cases run (handleKeyInput d) e.clear (b :: text) with
    | error x => rfl
    | ok e' => rfl

theorem copyClearPaste_fault (h : e.Sane) (hover : e.Overfull) (d : Display) (clipboard : Clipboard) :
    e.copyClearPaste d clipboard = .error .fault := by
  have hcopy : e.copyLines e.totalLineCount 0 [] = .error .fault :=
    copyLines_fault h (by rw [Nat.zero_add]; exact hover) (Nat.zero_le _) (Nat.zero_le _)
  have haction : e.executeContextMenuAction d clipboard 1 = .error .fault := by
    rw [executeContextMenuAction, if_neg (by decide), if_pos rfl, hcopy]
    rfl
  rw [copyClearPaste, haction]
  rfl

theorem length_line_lt (h : e.Sane) (hfits : e.totalLineCount ≤ maxLines) :
    ∀ l ∈ e.lines, l.length < maxLineLength := by
  intro l hl
  obtain ⟨i, hi, rfl⟩ := List.mem_map.mp hl
  exact h.length_lt ((List.mem_range.mp hi).trans_le hfits)

/-- Lines that can be typed come back. -/
theorem leaves_of_typable (h : e.Sane) (hfits : e.totalLineCount ≤ maxLines) (htypable : Typable e.lines)
    (d : Display) (clipboard : Clipboard) : e.Leaves d clipboard e.lines := by
  have hlength := length_line_lt h hfits
  have hcount := length_lines e
  unfold Leaves
  rw [copyClearPaste_eq h hfits]
  cases hlines : e.lines with
  | nil =>
    have hpos := h.count_pos
    rw [hlines, List.length_nil] at hcount
    omega
  | cons l below =>
    rw [hlines] at htypable hlength hcount
    rw [List.length_cons] at hcount
    obtain ⟨e₁, he₁, h₁⟩ := (typed_clear e).line d (htypable l List.mem_cons_self) (by decide)
      (hlength l List.mem_cons_self)
    obtain ⟨e', he', hlines'⟩ := h₁.lines_below d (fun l hl => htypable l (List.mem_cons_of_mem _ hl))
      (by rw [List.length_nil]; omega) (fun l hl => hlength l (List.mem_cons_of_mem _ hl))
    refine ⟨e', ?_, hlines'⟩
    rw [FlatText.intercalate_cons, run_append, he₁, Exec.ok_bind, he']

theorem mem_intercalate {lines : List (List Byte)} {l : List Byte} (hl : l ∈ lines) {b : Byte} (hb : b ∈ l) :
    b ∈ [newline].intercalate lines := by
  obtain ⟨above, below, rfl⟩ := List.append_of_mem hl
  rw [FlatText.intercalate_append]
  exact List.mem_append_right _ (List.mem_append_left _ hb)

/-- Lines that come back can be typed: every byte of the clipboard added to the text. -/
theorem typable_of_leaves (h : e.Sane) (hfits : e.totalLineCount ≤ maxLines) {d : Display} {clipboard : Clipboard}
    (hleaves : e.Leaves d clipboard e.lines) : Typable e.lines := by
  obtain ⟨e', he', hlines⟩ := hleaves
  have hone : e.clear.totalLineCount ≤ maxLines := Nat.succ_pos 511
  obtain ⟨e₁, he₁, hsize⟩ := size_paste (sane_clear e) hone d ([newline].intercalate e.lines)
  rw [copyClearPaste_eq h hfits, he₁] at he'
  cases he'
  rw [size_eq, size_eq, hlines, lines_clear, show ([newline].intercalate [([] : List Byte)]).length = 0 from rfl,
    Nat.zero_add] at hsize
  have hadds := List.countP_eq_length.mp (le_antisymm List.countP_le_length hsize)
  intro l hl b hb
  have hb' := of_decide_eq_true (hadds b (mem_intercalate hl hb))
  apply hb'.resolve_left
  obtain ⟨i, hi, rfl⟩ := List.mem_map.mp hl
  exact (h.rows i ((List.mem_range.mp hi).trans_le hfits)).all b (mem_row_of_mem_text hb)

theorem leaves_iff (h : e.Sane) (d : Display) (clipboard : Clipboard) :
    e.Leaves d clipboard e.lines ↔ e.totalLineCount ≤ maxLines ∧ Typable e.lines := by
  constructor
  · intro hleaves
    have hfits : e.totalLineCount ≤ maxLines := by
      by_contra hover
      obtain ⟨e', he', -⟩ := hleaves
      rw [copyClearPaste_fault h (not_le.mp hover)] at he'
      cases he'
    exact ⟨hfits, typable_of_leaves h hfits hleaves⟩
  · exact fun ⟨hfits, htypable⟩ => leaves_of_typable h hfits htypable d clipboard

end Restoring

/-! ### The lines of a file -/

section Files
variable {l : Loading} {part bytes : List Byte} {b : Byte}

/-- A load in progress: the part of the line that the next byte goes to. -/
structure Loaded (l : Loading) (part : List Byte) : Prop where
  sane : LoadSane l
  line_lt : l.lineIndex < maxLines
  text_eq : l.editor.text l.lineIndex = part
  column_eq : l.column = part.length
  blank : ∀ j, l.lineIndex < j → j < maxLines → l.editor.text j = []

/-- The part of the line begins a line of the file. -/
theorem mem_fileLinesFrom (part bytes : List Byte) : ∃ x ∈ fileLinesFrom part bytes, part <+: x := by
  induction bytes generalizing part with
  | nil => exact ⟨part, List.mem_singleton_self part, List.prefix_rfl⟩
  | cons b bytes ih =>
    unfold fileLinesFrom
    split_ifs
    · exact ⟨part, List.mem_cons_self, List.prefix_rfl⟩
    · obtain ⟨x, hx, hpart⟩ := ih (part ++ [b])
      exact ⟨x, hx, (List.prefix_append part [b]).trans hpart⟩
    · exact ih part

theorem Loaded.break (h : Loaded l part) (hnext : l.lineIndex + 1 < maxLines) :
    ∃ l', loadByte l newline = .ok l' ∧ Loaded l' [] ∧ l'.lineIndex = l.lineIndex + 1 ∧ l'.editor = l.editor := by
  obtain ⟨l', hl', hsane, -⟩ := loadByte_meets h.sane newline
  have hbyte : loadByte l newline = .ok ⟨l.editor, l.lineIndex + 1, 0⟩ := by
    rw [loadByte, if_pos h.line_lt, if_pos rfl]
  rw [hbyte] at hl'
  cases hl'
  refine ⟨_, hbyte, ⟨hsane, hnext, ?_, rfl, ?_⟩, rfl, rfl⟩
  · exact h.blank _ (Nat.lt_succ_self _) hnext
  · exact fun j hj hlt => h.blank j (Nat.lt_of_succ_lt hj) hlt

theorem Loaded.character (h : Loaded l part) (hbreak : b ≠ newline)
    (hkeep : b ≠ carriageReturn ∧ part.length < maxLineLength - 1) (hzero : b ≠ 0) :
    ∃ l', loadByte l b = .ok l' ∧ Loaded l' (part ++ [b]) ∧ l'.lineIndex = l.lineIndex ∧
      ∀ j ≠ l.lineIndex, l'.editor.text j = l.editor.text j := by
  obtain ⟨l', hl', hsane, -⟩ := loadByte_meets h.sane b
  have hrow := h.sane.rows _ h.line_lt
  rw [h.text_eq] at hrow
  have hfits : part.length + 1 < (l.editor.lineBuffer l.lineIndex).length := by
    rw [hrow.length]
    omega
  obtain ⟨row, hset, row', hend, hholds, -⟩ := hrow.holds.push hzero hfits
  have hcolumn : b ≠ carriageReturn ∧ l.column < maxLineLength - 1 := by
    rw [h.column_eq]
    exact hkeep
  have hbyte : loadByte l b =
      .ok ⟨{ l.editor with lineBuffer := Function.update l.editor.lineBuffer l.lineIndex row' }, l.lineIndex,
        l.column + 1⟩ := by
    rw [loadByte, if_pos h.line_lt, if_neg hbreak, if_pos hcolumn, line_of_lt h.line_lt, Exec.ok_bind, h.column_eq,
      hset, Exec.ok_bind, hend, Exec.ok_bind, setLine_of_lt h.line_lt]
    rfl
  have hother : ∀ j ≠ l.lineIndex,
      content (Function.update l.editor.lineBuffer l.lineIndex row' j) = l.editor.text j := by
    intro j hj
    rw [Function.update_of_ne hj]
    rfl
  have hself : content (Function.update l.editor.lineBuffer l.lineIndex row' l.lineIndex) = part ++ [b] := by
    rw [Function.update_self, hholds.content_eq]
  rw [hbyte] at hl'
  cases hl'
  refine ⟨_, hbyte, ⟨hsane, h.line_lt, ?_, ?_, ?_⟩, rfl, hother⟩
  · exact hself
  · rw [h.column_eq, List.length_append, List.length_singleton]
  · exact fun j hj hlt => (hother j hj.ne').trans (h.blank j hj hlt)

theorem Loaded.skip (h : Loaded l part) (hbreak : b ≠ newline)
    (hdrop : ¬(b ≠ carriageReturn ∧ part.length < maxLineLength - 1)) : loadByte l b = .ok l := by
  rw [← h.column_eq] at hdrop
  rw [loadByte, if_pos h.line_lt, if_neg hbreak, if_neg hdrop]

/-- Without zeros the rows hold the lines of the file. -/
theorem Loaded.run (h : Loaded l part) (hzero : ∀ x ∈ fileLinesFrom part bytes, 0 ∉ x)
    (hfits : l.lineIndex + bytes.count newline < maxLines) :
    ∃ l', Library.run loadByte l bytes = .ok l' ∧ l'.lineIndex = l.lineIndex + bytes.count newline ∧
      linesFrom l'.editor.text l.lineIndex (bytes.count newline + 1) = fileLinesFrom part bytes ∧
      ∀ j < l.lineIndex, l'.editor.text j = l.editor.text j := by
  induction bytes generalizing l part with
  | nil =>
    refine ⟨l, rfl, rfl, ?_, fun _ _ => rfl⟩
    rw [List.count_nil, linesFrom_succ, h.text_eq]
    rfl
  | cons b bytes ih =>
    rw [run_cons]
    unfold fileLinesFrom at hzero ⊢
    by_cases hbreak : b = newline
    · subst hbreak
      rw [List.count_cons_self] at hfits ⊢
      rw [if_pos rfl] at hzero ⊢
      obtain ⟨l₁, hl₁, h₁, hline, heditor⟩ := h.break (by omega)
      obtain ⟨l', hl', hcount, hlines, hbefore⟩ := ih h₁ (fun x hx => hzero x (List.mem_cons_of_mem _ hx)) (by omega)
      rw [hline] at hcount hlines hbefore
      refine ⟨l', by rw [hl₁, Exec.ok_bind, hl'], by omega, ?_, ?_⟩
      · rw [linesFrom_succ, hlines, hbefore _ (Nat.lt_succ_self _), heditor, h.text_eq]
      · intro j hj
        rw [hbefore j (Nat.lt_succ_of_lt hj), heditor]
    · rw [List.count_cons_of_ne hbreak] at hfits ⊢
      rw [if_neg hbreak] at hzero ⊢
      by_cases hkeep : b ≠ carriageReturn ∧ part.length < maxLineLength - 1
      · rw [if_pos hkeep] at hzero ⊢
        have hb : b ≠ 0 := by
          rintro rfl
          obtain ⟨x, hx, hpart⟩ := mem_fileLinesFrom (part ++ [0]) bytes
          exact hzero x hx (hpart.subset (List.mem_append_right _ (List.mem_singleton_self 0)))
        obtain ⟨l₁, hl₁, h₁, hline, hother⟩ := h.character hbreak hkeep hb
        obtain ⟨l', hl', hcount, hlines, hbefore⟩ := ih h₁ hzero (by omega)
        rw [hline] at hcount hlines hbefore
        refine ⟨l', by rw [hl₁, Exec.ok_bind, hl'], hcount, hlines, ?_⟩
        exact fun j hj => (hbefore j hj).trans (hother j hj.ne)
      · rw [if_neg hkeep] at hzero ⊢
        rw [h.skip hbreak hkeep, Exec.ok_bind]
        exact ih h hzero hfits

theorem loaded_create (d : Display) (w : XPWindow) : Loaded ⟨create d w, 0, 0⟩ [] where
  sane := loadSane_create d w
  line_lt := Nat.succ_pos 511
  text_eq := rowHolds_blankLine.content_eq
  column_eq := rfl
  blank _ _ _ := rowHolds_blankLine.content_eq

theorem openWindow_lines {d : Display} {w : XPWindow} {e : XPTextEditor} (he : openWindow d w (some bytes) = .ok e)
    (hfits : bytes.count newline < maxLines) (hzero : ∀ x ∈ fileLines bytes, 0 ∉ x) : e.lines = fileLines bytes := by
  have hstart : 0 + bytes.count newline < maxLines := by omega
  obtain ⟨l, hl, hline, hlines, -⟩ := (loaded_create d w).run hzero hstart
  rw [openWindow, hl, Exec.ok_bind] at he
  cases he
  rw [lines_eq_linesFrom]
  dsimp only at hlines hline ⊢
  rw [hline, Nat.zero_add]
  exact hlines

end Files

/-- The lines of a document have no zeros. -/
theorem zero_not_mem_lines (e : XPTextEditor) : ∀ x ∈ e.lines, 0 ∉ x := by
  intro x hx hzero
  obtain ⟨i, -, rfl⟩ := List.mem_map.mp hx
  have hne := List.mem_takeWhile_imp hzero
  exact absurd rfl (of_decide_eq_true hne)

/-- After any file is opened, Copy All, Clear and Paste leave the lines that the document has exactly where
the file fits into the buffer and their bytes can be typed, and they leave the lines of the file, as far as
they are loaded, exactly where the file fits and the bytes of these can. -/
theorem paste_restores_iff (d : Display) (w : XPWindow) (bytes : List Byte) (clipboard : Clipboard) :
    ∃ e, openWindow d w (some bytes) = .ok e ∧
      (e.Leaves d clipboard e.lines ↔ FileFits (some bytes) ∧ Typable e.lines) ∧
      (e.Leaves d clipboard (fileLines bytes) ↔ FileFits (some bytes) ∧ Typable (fileLines bytes)) := by
  obtain ⟨e, he, hsane, hover⟩ := openWindow_ok d w (some bytes)
  have hfits : e.totalLineCount ≤ maxLines ↔ FileFits (some bytes) := not_lt.symm.trans (hover.not.trans not_not)
  have hlines : FileFits (some bytes) → (∀ x ∈ fileLines bytes, 0 ∉ x) → e.lines = fileLines bytes :=
    fun hfile hzero => openWindow_lines he (hfile bytes (Option.mem_some_self bytes)) hzero
  refine ⟨e, he, ?_, ?_⟩
  · rw [leaves_iff hsane, hfits]
  · constructor
    · intro hleaves
      obtain ⟨e', he', hsame⟩ := hleaves
      have hdone : e.totalLineCount ≤ maxLines := by
        by_contra hlong
        rw [copyClearPaste_fault hsane (not_le.mp hlong)] at he'
        cases he'
      have hshown := hlines (hfits.mp hdone) (hsame ▸ zero_not_mem_lines e')
      rw [← hshown] at hsame ⊢
      exact ⟨hfits.mp hdone, typable_of_leaves hsane hdone ⟨e', he', hsame⟩⟩
    · rintro ⟨hfile, htypable⟩
      have hzero : ∀ x ∈ fileLines bytes, 0 ∉ x := fun x hx hmem => absurd (htypable x hx 0 hmem) (by decide)
      rw [← hlines hfile hzero] at htypable ⊢
      exact leaves_of_typable hsane (hfits.mpr hfile) htypable d clipboard

/-- A file of one tab. -/
theorem tab_lost :
    ¬ ∃ e, openWindow Desktop.sampleDisplay ⟨80, 80, 550, 480⟩ (some [9]) = .ok e ∧
      e.Leaves Desktop.sampleDisplay ⟨[], false⟩ e.lines := by
  rintro ⟨e, he, hleaves⟩
  have hlines : e.lines = [[9]] := openWindow_lines he (by decide) (by decide)
  obtain ⟨e₁, he₁, hsane, -⟩ := openWindow_ok Desktop.sampleDisplay ⟨80, 80, 550, 480⟩ (some [9])
  rw [he] at he₁
  cases he₁
  have htypable := ((leaves_iff hsane _ _).mp hleaves).2
  rw [hlines] at htypable
  exact absurd htypable (by decide)

end XPTextEditor

end DualFuse.Gui
