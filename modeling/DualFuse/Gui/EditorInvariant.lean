import DualFuse.Gui.TextEditor

/-! The invariant of an editor. Its rows stay strings that leave the last byte alone, and
the cursor stays in the document. Loading counts one line more than the buffer has when a
file goes on after the last line, so an editor may believe in a row that does not exist; the
keys then stop with a fault where they reach it. -/

namespace DualFuse.Gui

open Library Library.CString Utility

namespace XPTextEditor

/-- The text of a row. -/
def text (e : XPTextEditor) (i : ℕ) : List Byte := content (e.lineBuffer i)

/-- A row of the buffer that holds a string without a line break. -/
abbrev RowHolds (row str : List Byte) : Prop := Filled (fun b => b ≠ newline) maxLineLength row str

/-- The document has more lines than the buffer. -/
def Overfull (e : XPTextEditor) : Prop := maxLines < e.totalLineCount

structure Sane (e : XPTextEditor) : Prop where
  rows : ∀ i < maxLines, RowHolds (e.lineBuffer i) (e.text i)
  count_pos : 0 < e.totalLineCount
  count_le : e.totalLineCount ≤ maxLines + 1
  cursor_lt : e.cursorLineIndex < e.totalLineCount
  column_le : e.cursorLineIndex < maxLines → e.cursorColumnIndex ≤ (e.text e.cursorLineIndex).length
  scroll_nonneg : 0 ≤ e.verticalScrollOffset

theorem RowHolds.content_eq {row str : List Byte} (h : RowHolds row str) : content row = str := h.holds.content_eq

theorem rowHolds_blankLine : RowHolds blankLine [] := filled_replicate (by decide) 255

theorem rowHolds_copy {row str src : List Byte} (h : RowHolds row str) (hsrc : 0 ∉ src)
    (hlength : src.length ≤ maxLineLength - 1) (hall : ∀ b ∈ src, b ≠ newline) :
    ∃ row', strncpy row 0 src (maxLineLength - 1) = .ok row' ∧ RowHolds row' src := Filled.copy h hsrc hlength hall

section Access
variable {e : XPTextEditor} {i : ℕ}

theorem line_of_lt (h : i < maxLines) : e.line i = .ok (e.lineBuffer i) := if_pos h

theorem setLine_of_lt (h : i < maxLines) (row : List Byte) :
    e.setLine i row = .ok { e with lineBuffer := Function.update e.lineBuffer i row } := if_pos h

theorem line_of_ge (h : maxLines ≤ i) : e.line i = .error .fault := if_neg (not_lt.mpr h)

theorem Sane.strlen_row (h : e.Sane) (hi : i < maxLines) : strlen (e.lineBuffer i) = .ok (e.text i).length :=
  (h.rows i hi).holds.strlen_eq

theorem Sane.length_lt (h : e.Sane) (hi : i < maxLines) : (e.text i).length < maxLineLength := (h.rows i hi).length_lt

end Access

/-! ### The loops -/

section Loops

theorem eq_withRows {e : XPTextEditor} {rows : ℕ → List Byte} (h : ∀ j, rows j = e.lineBuffer j) :
    e = { e with lineBuffer := rows } := by
  rw [show rows = e.lineBuffer from funext h]

theorem shiftDown_eq {e : XPTextEditor} {stop i : ℕ} (hi : i < maxLines) :
    shiftDown stop e i = .ok { e with
      lineBuffer := fun j => if stop < j ∧ j ≤ i then e.lineBuffer (j - 1) else e.lineBuffer j } := by
  induction i generalizing e with
  | zero =>
    rw [shiftDown]
    exact congrArg _ (eq_withRows fun j => if_neg (by omega))
  | succ i ih =>
    rw [shiftDown]
    by_cases hstop : i + 1 > stop
    · rw [if_pos hstop, line_of_lt (by omega), Exec.ok_bind, setLine_of_lt hi, Exec.ok_bind, ih (by omega)]
      congr 2
      funext j
      dsimp only
      rcases lt_trichotomy j (i + 1) with hj | rfl | hj
      · by_cases hlow : stop < j
        · rw [if_pos ⟨hlow, by omega⟩, if_pos ⟨hlow, by omega⟩, Function.update_of_ne (by omega)]
        · rw [if_neg fun h => hlow h.1, if_neg fun h => hlow h.1, Function.update_of_ne (by omega)]
      · rw [if_neg (by omega), if_pos ⟨hstop, le_refl _⟩, Function.update_self, Nat.add_sub_cancel]
      · rw [if_neg (by omega), if_neg (by omega), Function.update_of_ne (by omega)]
    · rw [if_neg hstop]
      exact congrArg _ (eq_withRows fun j => if_neg (by omega))

theorem shiftUp_eq {e : XPTextEditor} {i n : ℕ} (hn : i + n < maxLines) :
    shiftUp e i n = .ok { e with
      lineBuffer := fun j => if i ≤ j ∧ j < i + n then e.lineBuffer (j + 1) else e.lineBuffer j } := by
  induction n generalizing e i with
  | zero =>
    rw [shiftUp]
    exact congrArg _ (eq_withRows fun j => if_neg (by omega))
  | succ n ih =>
    rw [shiftUp, line_of_lt (by omega), Exec.ok_bind, setLine_of_lt (by omega), Exec.ok_bind, ih (by omega)]
    congr 2
    funext j
    dsimp only
    rcases lt_trichotomy j i with hj | rfl | hj
    · rw [if_neg (by omega), if_neg (by omega), Function.update_of_ne (by omega)]
    · rw [if_neg (by omega), if_pos (by omega), Function.update_self]
    · by_cases hhigh : j < i + 1 + n
      · rw [if_pos ⟨hj, hhigh⟩, if_pos (by omega), Function.update_of_ne (by omega)]
      · rw [if_neg (by omega), if_neg (by omega), Function.update_of_ne (by omega)]

/-- In a document with a line too many the last row that is copied does not exist. -/
theorem shiftUp_overfull {e : XPTextEditor} {i n : ℕ} (hn : i + (n + 1) = maxLines) :
    shiftUp e i (n + 1) = .error .fault := by
  induction n generalizing e i with
  | zero =>
    rw [shiftUp, line_of_ge (by omega)]
    rfl
  | succ n ih => rw [shiftUp, line_of_lt (by omega), Exec.ok_bind, setLine_of_lt (by omega), Exec.ok_bind, ih (by omega)]

end Loops

/-! ### What each key does -/

/-- The rows hold these texts, and the cursor is there. -/
structure Shows (e : XPTextEditor) (texts : ℕ → List Byte) (count line column : ℕ) (scroll : ℤ) : Prop where
  rows : ∀ i < maxLines, RowHolds (e.lineBuffer i) (texts i)
  count_eq : e.totalLineCount = count
  line_eq : e.cursorLineIndex = line
  column_eq : e.cursorColumnIndex = column
  scroll_eq : e.verticalScrollOffset = scroll

section Keys
variable {e e' : XPTextEditor} {texts : ℕ → List Byte} {count line column : ℕ} {scroll : ℤ}

theorem Shows.text_eq (h : e.Shows texts count line column scroll) {i : ℕ} (hi : i < maxLines) : e.text i = texts i :=
  (h.rows i hi).content_eq

theorem Shows.sane (h : e.Shows texts count line column scroll) (hpos : 0 < count) (hle : count ≤ maxLines + 1)
    (hline : line < count) (hcolumn : line < maxLines → column ≤ (texts line).length) (hscroll : 0 ≤ scroll) :
    e.Sane := by
  obtain ⟨hrows, rfl, rfl, rfl, rfl⟩ := h
  refine ⟨fun i hi => ?_, hpos, hle, hline, fun hlt => ?_, hscroll⟩
  · have hrow := hrows i hi
    rwa [text, hrow.content_eq]
  · rw [text, (hrows _ hlt).content_eq]
    exact hcolumn hlt

theorem Sane.shows (h : e.Sane) :
    e.Shows e.text e.totalLineCount e.cursorLineIndex e.cursorColumnIndex e.verticalScrollOffset :=
  ⟨h.rows, rfl, rfl, rfl, rfl⟩

/-- One row is replaced. -/
theorem rows_update (h : e.Sane) {i : ℕ} {row str : List Byte} (hrow : RowHolds row str) :
    ∀ j < maxLines, RowHolds (Function.update e.lineBuffer i row j) (Function.update e.text i str j) := by
  intro j hj
  rcases eq_or_ne j i with rfl | hne
  · rwa [Function.update_self, Function.update_self]
  · rw [Function.update_of_ne hne, Function.update_of_ne hne]
    exact h.rows j hj

theorem mem_row_of_mem_text {i : ℕ} {b : Byte} (h : b ∈ e.text i) : b ∈ e.lineBuffer i :=
  List.takeWhile_sublist _ |>.subset h

/-- A cursor behind the last row is in a document that is too long. -/
theorem Sane.overfull_of_ge (h : e.Sane) (hge : maxLines ≤ e.cursorLineIndex) : e.Overfull :=
  lt_of_le_of_lt hge h.cursor_lt

theorem insertCharacter_meets (h : e.Sane) {c : Byte} (hc : 0x20 ≤ c.toNat)
    (hfits : e.cursorLineIndex < maxLines → (e.text e.cursorLineIndex).length < maxLineLength - 1) :
    Exec.Meets (fun _ => e.Overfull)
      (fun e' => e'.Shows (Function.update e.text e.cursorLineIndex ((e.text e.cursorLineIndex).take e.cursorColumnIndex ++
          c :: (e.text e.cursorLineIndex).drop e.cursorColumnIndex))
        e.totalLineCount e.cursorLineIndex (e.cursorColumnIndex + 1) e.verticalScrollOffset)
      (e.insertCharacter c) := by
  unfold insertCharacter
  rcases lt_or_ge e.cursorLineIndex maxLines with hlt | hge
  · have hzero : c ≠ 0 := by rintro rfl; exact absurd hc (by decide)
    have hbreak : c ≠ newline := by rintro rfl; exact absurd hc (by decide)
    have hroom := hfits hlt
    obtain ⟨row, hrow, row', hrow', hfilled⟩ := (h.rows _ hlt).insert (h.column_le hlt) (by omega) hzero hbreak
    rw [line_of_lt hlt, Exec.ok_bind, h.strlen_row hlt, Exec.ok_bind, hrow, Exec.ok_bind, hrow', Exec.ok_bind,
      setLine_of_lt hlt, Exec.ok_bind]
    exact ⟨rows_update h hfilled, rfl, rfl, rfl, rfl⟩
  · rw [line_of_ge hge]
    exact h.overfull_of_ge hge

theorem deleteInLine_meets (h : e.Sane) (hpos : 0 < e.cursorColumnIndex) :
    Exec.Meets (fun _ => e.Overfull)
      (fun e' => e'.Shows (Function.update e.text e.cursorLineIndex
          ((e.text e.cursorLineIndex).take (e.cursorColumnIndex - 1) ++
            (e.text e.cursorLineIndex).drop e.cursorColumnIndex))
        e.totalLineCount e.cursorLineIndex (e.cursorColumnIndex - 1) e.verticalScrollOffset)
      e.deleteInLine := by
  unfold deleteInLine
  rcases lt_or_ge e.cursorLineIndex maxLines with hlt | hge
  · obtain ⟨row, hrow, hfilled⟩ := (h.rows _ hlt).delete hpos (h.column_le hlt)
    rw [line_of_lt hlt, Exec.ok_bind, h.strlen_row hlt, Exec.ok_bind, hrow, Exec.ok_bind, setLine_of_lt hlt,
      Exec.ok_bind]
    exact ⟨rows_update h hfilled, rfl, rfl, rfl, rfl⟩
  · rw [line_of_ge hge]
    exact h.overfull_of_ge hge

/-- The texts after the line of the cursor is split. -/
def splitTexts (e : XPTextEditor) (j : ℕ) : List Byte :=
  if j < e.cursorLineIndex then e.text j
  else if j = e.cursorLineIndex then (e.text e.cursorLineIndex).take e.cursorColumnIndex
  else if j = e.cursorLineIndex + 1 then (e.text e.cursorLineIndex).drop e.cursorColumnIndex
  else if j ≤ e.totalLineCount then e.text (j - 1)
  else e.text j

theorem splitLine_meets (h : e.Sane) (hroom : e.totalLineCount < maxLines) :
    Exec.Meets (fun _ => False)
      (fun e' => e'.Shows e.splitTexts (e.totalLineCount + 1) (e.cursorLineIndex + 1) 0 e.verticalScrollOffset)
      e.splitLine := by
  have hlt : e.cursorLineIndex < maxLines := h.cursor_lt.trans hroom
  have hnext : e.cursorLineIndex + 1 < maxLines := lt_of_le_of_lt h.cursor_lt hroom
  have hcolumn := h.column_le hlt
  have htail := (h.rows _ hlt).drop hcolumn
  have hlength : ((e.text e.cursorLineIndex).drop e.cursorColumnIndex).length ≤ maxLineLength - 1 := by
    have hrow := h.length_lt hlt
    rw [List.length_drop]
    omega
  obtain ⟨row, hrow, hcut⟩ := (h.rows _ hlt).cut hcolumn
  obtain ⟨row', hrow', hcopy⟩ := rowHolds_copy (h.rows _ hnext) htail.1 hlength
    fun b hb => (h.rows _ hlt).all b (mem_row_of_mem_text (List.mem_of_mem_drop hb))
  unfold splitLine
  rw [line_of_lt hlt, Exec.ok_bind, h.strlen_row hlt, Exec.ok_bind, shiftDown_eq hroom, Exec.ok_bind, line_of_lt hlt,
    Exec.ok_bind]
  dsimp only
  rw [if_neg (by omega), stringAt, if_pos htail.mem, htail.content_eq, Exec.ok_bind, hrow, Exec.ok_bind,
    setLine_of_lt hlt, Exec.ok_bind, line_of_lt hnext, Exec.ok_bind]
  dsimp only
  rw [Function.update_of_ne (by omega), if_neg (by omega), List.take_of_length_le hlength, hrow', Exec.ok_bind,
    setLine_of_lt hnext, Exec.ok_bind]
  refine ⟨fun j hj => ?_, rfl, rfl, rfl, rfl⟩
  dsimp only
  unfold splitTexts
  rcases lt_trichotomy j e.cursorLineIndex with hlow | rfl | hhigh
  · rw [if_pos hlow, Function.update_of_ne (by omega), Function.update_of_ne (by omega), if_neg (by omega)]
    exact h.rows j hj
  · rw [if_neg (lt_irrefl _), if_pos rfl, Function.update_of_ne (by omega), Function.update_self]
    exact hcut
  · rw [if_neg (by omega), if_neg (by omega)]
    rcases eq_or_ne j (e.cursorLineIndex + 1) with rfl | hne
    · rw [if_pos rfl, Function.update_self]
      exact hcopy
    · rw [if_neg hne, Function.update_of_ne hne, Function.update_of_ne (by omega)]
      by_cases hcount : j ≤ e.totalLineCount
      · rw [if_pos ⟨by omega, hcount⟩, if_pos hcount]
        exact h.rows (j - 1) (by omega)
      · rw [if_neg fun h => hcount h.2, if_neg hcount]
        exact h.rows j hj

/-- The texts after the line of the cursor is joined to the one above. -/
def joinTexts (e : XPTextEditor) (j : ℕ) : List Byte :=
  if j = e.cursorLineIndex - 1 then e.text (e.cursorLineIndex - 1) ++ e.text e.cursorLineIndex
  else if j < e.cursorLineIndex then e.text j
  else if j < e.totalLineCount - 1 then e.text (j + 1)
  else if j = e.totalLineCount - 1 then []
  else e.text j

theorem joinLines_meets (h : e.Sane) (hpos : 0 < e.cursorLineIndex) :
    Exec.Meets (fun _ => e.Overfull)
      (fun e' =>
        if (e.text (e.cursorLineIndex - 1)).length + (e.text e.cursorLineIndex).length < maxLineLength - 1 then
          e'.Shows e.joinTexts (e.totalLineCount - 1) (e.cursorLineIndex - 1) (e.text (e.cursorLineIndex - 1)).length
            e.verticalScrollOffset
        else e' = e)
      e.joinLines := by
  have hcursor := h.cursor_lt
  have hcount := h.count_le
  unfold joinLines
  rcases lt_or_ge e.cursorLineIndex maxLines with hlt | hge
  · have hprev : e.cursorLineIndex - 1 < maxLines := by omega
    rw [line_of_lt hprev, Exec.ok_bind, line_of_lt hlt, Exec.ok_bind, h.strlen_row hprev, Exec.ok_bind,
      h.strlen_row hlt, Exec.ok_bind]
    split_ifs with hfits
    · obtain ⟨row, hrow, hjoined⟩ := (h.rows _ hprev).append (h.rows _ hlt).holds.1
        (m := maxLineLength - (e.text (e.cursorLineIndex - 1)).length - 1) (by omega) (by omega)
        fun b hb => (h.rows _ hlt).all b (mem_row_of_mem_text hb)
      rw [show content (e.lineBuffer e.cursorLineIndex) = e.text e.cursorLineIndex from rfl, hrow, Exec.ok_bind,
        setLine_of_lt hprev, Exec.ok_bind]
      dsimp only
      rcases lt_or_ge maxLines e.totalLineCount with hover | hroom
      · -- the row behind the buffer is read by the last turn of the loop
        obtain ⟨n, hn⟩ : ∃ n, e.totalLineCount - 1 - e.cursorLineIndex = n + 1 :=
          ⟨e.totalLineCount - 2 - e.cursorLineIndex, by omega⟩
        rw [hn, shiftUp_overfull (by omega)]
        exact hover
      · rw [shiftUp_eq (by omega), Exec.ok_bind, setLine_of_lt (by dsimp only; omega), Exec.ok_bind]
        refine ⟨fun j hj => ?_, rfl, rfl, rfl, rfl⟩
        dsimp only
        unfold joinTexts
        rcases eq_or_ne j (e.totalLineCount - 1) with rfl | hlast
        · rw [Function.update_self, if_neg (by omega), if_neg (by omega), if_neg (lt_irrefl _), if_pos rfl]
          exact rowHolds_blankLine
        · rw [Function.update_of_ne hlast]
          rcases eq_or_ne j (e.cursorLineIndex - 1) with rfl | hne
          · rw [if_neg (by omega), if_pos rfl, Function.update_self]
            exact hjoined
          · rw [if_neg hne]
            by_cases hlow : j < e.cursorLineIndex
            · rw [if_pos hlow, if_neg (by omega), Function.update_of_ne hne]
              exact h.rows j hj
            · rw [if_neg hlow]
              by_cases hhigh : j < e.totalLineCount - 1
              · rw [if_pos hhigh, if_pos (by omega), Function.update_of_ne (by omega)]
                exact h.rows (j + 1) (by omega)
              · rw [if_neg hhigh, if_neg hlast, if_neg (by omega), Function.update_of_ne hne]
                exact h.rows j hj
    · rfl
  · rw [line_of_lt (by omega), Exec.ok_bind, line_of_ge hge]
    exact h.overfull_of_ge hge

theorem clampCursorColumnToLineEnd_meets (hrows : ∀ i < maxLines, RowHolds (e.lineBuffer i) (e.text i))
    (hlt : e.cursorLineIndex < maxLines) (E : Stop → Prop) :
    Exec.Meets E
      (fun e' => e'.Shows e.text e.totalLineCount e.cursorLineIndex
        (min e.cursorColumnIndex (e.text e.cursorLineIndex).length) e.verticalScrollOffset)
      (clampCursorColumnToLineEnd e) := by
  rw [clampCursorColumnToLineEnd, line_of_lt hlt, Exec.ok_bind, (hrows _ hlt).holds.strlen_eq, Exec.ok_bind]
  split_ifs with hgt
  · rw [min_eq_right (by omega)]
    exact ⟨hrows, rfl, rfl, rfl, rfl⟩
  · rw [min_eq_left (by omega)]
    exact ⟨hrows, rfl, rfl, rfl, rfl⟩

theorem moveUp_meets (h : e.Sane) :
    Exec.Meets (fun _ => e.Overfull)
      (fun e' => if e.cursorLineIndex > 0 then
          e'.Shows e.text e.totalLineCount (e.cursorLineIndex - 1)
            (min e.cursorColumnIndex (e.text (e.cursorLineIndex - 1)).length) e.verticalScrollOffset
        else e' = e)
      e.moveUp := by
  have hcursor := h.cursor_lt
  have hcount := h.count_le
  unfold moveUp
  split_ifs with hpos
  · have hprev : e.cursorLineIndex - 1 < maxLines := by omega
    exact clampCursorColumnToLineEnd_meets (e := { e with cursorLineIndex := e.cursorLineIndex - 1 }) h.rows hprev _
  · rfl

theorem moveDown_meets (h : e.Sane) :
    Exec.Meets (fun _ => e.Overfull)
      (fun e' => if e.cursorLineIndex < e.totalLineCount - 1 then
          e'.Shows e.text e.totalLineCount (e.cursorLineIndex + 1)
            (min e.cursorColumnIndex (e.text (e.cursorLineIndex + 1)).length) e.verticalScrollOffset
        else e' = e)
      e.moveDown := by
  unfold moveDown
  split_ifs with hlast
  · rcases lt_or_ge (e.cursorLineIndex + 1) maxLines with hlt | hge
    · exact clampCursorColumnToLineEnd_meets (e := { e with cursorLineIndex := e.cursorLineIndex + 1 }) h.rows hlt _
    · rw [clampCursorColumnToLineEnd, line_of_ge hge]
      exact lt_of_le_of_lt hge (by omega)
  · rfl

theorem moveLeft_meets (h : e.Sane) :
    Exec.Meets (fun _ => e.Overfull)
      (fun e' => if e.cursorColumnIndex > 0 then
          e'.Shows e.text e.totalLineCount e.cursorLineIndex (e.cursorColumnIndex - 1) e.verticalScrollOffset
        else if e.cursorLineIndex > 0 then
          e'.Shows e.text e.totalLineCount (e.cursorLineIndex - 1) (e.text (e.cursorLineIndex - 1)).length
            e.verticalScrollOffset
        else e' = e)
      e.moveLeft := by
  have hcursor := h.cursor_lt
  have hcount := h.count_le
  unfold moveLeft
  split_ifs with hcolumn hpos
  · exact ⟨h.rows, rfl, rfl, rfl, rfl⟩
  · have hprev : e.cursorLineIndex - 1 < maxLines := by omega
    rw [line_of_lt hprev, Exec.ok_bind, h.strlen_row hprev, Exec.ok_bind]
    exact ⟨h.rows, rfl, rfl, rfl, rfl⟩
  · rfl

theorem moveRight_meets (h : e.Sane) :
    Exec.Meets (fun _ => e.Overfull)
      (fun e' => if e.cursorColumnIndex < (e.text e.cursorLineIndex).length then
          e'.Shows e.text e.totalLineCount e.cursorLineIndex (e.cursorColumnIndex + 1) e.verticalScrollOffset
        else if e.cursorLineIndex < e.totalLineCount - 1 then
          e'.Shows e.text e.totalLineCount (e.cursorLineIndex + 1) 0 e.verticalScrollOffset
        else e' = e)
      e.moveRight := by
  unfold moveRight
  rcases lt_or_ge e.cursorLineIndex maxLines with hlt | hge
  · rw [line_of_lt hlt, Exec.ok_bind, h.strlen_row hlt, Exec.ok_bind]
    split_ifs with hcolumn hlast
    · exact ⟨h.rows, rfl, rfl, rfl, rfl⟩
    · exact ⟨h.rows, rfl, rfl, rfl, rfl⟩
    · rfl
  · rw [line_of_ge hge]
    exact h.overfull_of_ge hge

/-! ### Every key keeps the invariant -/

/-- The editor is sane, and too long only where it was before. -/
structure Follows (e e' : XPTextEditor) : Prop where
  sane : e'.Sane
  overfull : e'.Overfull → e.Overfull

theorem Sane.follows (h : e.Sane) : e.Follows e := ⟨h, id⟩

theorem Follows.trans {e'' : XPTextEditor} (h : e.Follows e') (h' : e'.Follows e'') : e.Follows e'' :=
  ⟨h'.sane, fun hover => h.overfull (h'.overfull hover)⟩

theorem Shows.follows (h : e'.Shows texts count line column scroll) (he : e.Sane) (hpos : 0 < count)
    (hle : count ≤ e.totalLineCount) (hline : line < count) (hcolumn : line < maxLines → column ≤ (texts line).length)
    (hscroll : scroll = e.verticalScrollOffset) : e.Follows e' :=
  ⟨h.sane hpos (hle.trans he.count_le) hline hcolumn (hscroll ▸ he.scroll_nonneg),
    fun hover => lt_of_lt_of_le hover (h.count_eq.trans_le hle)⟩

theorem splitLine_follows (h : e.Sane) (hroom : e.totalLineCount < maxLines) :
    Exec.Meets (fun _ => e.Overfull) e.Follows e.splitLine := by
  refine ((splitLine_meets h hroom).weaken fun _ => False.elim).mono fun e' hshows => ⟨?_, fun hover => ?_⟩
  · refine hshows.sane (Nat.succ_pos _) (by omega) (Nat.succ_lt_succ h.cursor_lt) (fun _ => Nat.zero_le _) ?_
    exact h.scroll_nonneg
  · have hcount := hshows.count_eq
    unfold Overfull at hover
    omega

theorem deleteInLine_follows (h : e.Sane) (hpos : 0 < e.cursorColumnIndex) :
    Exec.Meets (fun _ => e.Overfull) e.Follows e.deleteInLine := by
  refine (deleteInLine_meets h hpos).mono fun e' hshows => ?_
  refine hshows.follows h h.count_pos le_rfl h.cursor_lt (fun hlt => ?_) rfl
  have hcolumn := h.column_le hlt
  rw [Function.update_self, List.length_append, List.length_take, List.length_drop]
  omega

theorem joinLines_follows (h : e.Sane) (hpos : 0 < e.cursorLineIndex) :
    Exec.Meets (fun _ => e.Overfull) e.Follows e.joinLines := by
  have hcursor := h.cursor_lt
  refine (joinLines_meets h hpos).mono fun e' hjoin => ?_
  split_ifs at hjoin with hfits
  · refine hjoin.follows h (by omega) (by omega) (by omega) (fun _ => ?_) rfl
    rw [joinTexts, if_pos rfl, List.length_append]
    omega
  · rw [hjoin]
    exact h.follows

theorem moveUp_follows (h : e.Sane) : Exec.Meets (fun _ => e.Overfull) e.Follows e.moveUp := by
  have hcursor := h.cursor_lt
  refine (moveUp_meets h).mono fun e' hmove => ?_
  split_ifs at hmove with hpos
  · exact hmove.follows h h.count_pos le_rfl (by omega) (fun _ => min_le_right _ _) rfl
  · rw [hmove]
    exact h.follows

theorem moveDown_follows (h : e.Sane) : Exec.Meets (fun _ => e.Overfull) e.Follows e.moveDown := by
  refine (moveDown_meets h).mono fun e' hmove => ?_
  split_ifs at hmove with hlast
  · exact hmove.follows h h.count_pos le_rfl (by omega) (fun _ => min_le_right _ _) rfl
  · rw [hmove]
    exact h.follows

theorem moveLeft_follows (h : e.Sane) : Exec.Meets (fun _ => e.Overfull) e.Follows e.moveLeft := by
  have hcursor := h.cursor_lt
  refine (moveLeft_meets h).mono fun e' hmove => ?_
  split_ifs at hmove with hcolumn hpos
  · exact hmove.follows h h.count_pos le_rfl hcursor (fun hlt => (Nat.sub_le _ _).trans (h.column_le hlt)) rfl
  · exact hmove.follows h h.count_pos le_rfl (by omega) (fun _ => le_rfl) rfl
  · rw [hmove]
    exact h.follows

theorem moveRight_follows (h : e.Sane) : Exec.Meets (fun _ => e.Overfull) e.Follows e.moveRight := by
  refine (moveRight_meets h).mono fun e' hmove => ?_
  split_ifs at hmove with hcolumn hlast
  · exact hmove.follows h h.count_pos le_rfl h.cursor_lt (fun _ => hcolumn) rfl
  · exact hmove.follows h h.count_pos le_rfl (by omega) (fun _ => Nat.zero_le _) rfl
  · rw [hmove]
    exact h.follows

theorem insertCharacter_follows (h : e.Sane) {c : Byte} (hc : 0x20 ≤ c.toNat)
    (hfits : e.cursorLineIndex < maxLines → (e.text e.cursorLineIndex).length < maxLineLength - 1) :
    Exec.Meets (fun _ => e.Overfull) e.Follows (e.insertCharacter c) := by
  refine (insertCharacter_meets h hc hfits).mono fun e' hshows => ?_
  refine hshows.follows h h.count_pos le_rfl h.cursor_lt (fun hlt => ?_) rfl
  have hcolumn := h.column_le hlt
  rw [Function.update_self, List.length_append, List.length_cons, List.length_take]
  omega

theorem currentLineLength_meets (h : e.Sane) :
    Exec.Meets (fun _ => e.Overfull)
      (fun n => e.cursorLineIndex < maxLines ∧ n = (e.text e.cursorLineIndex).length) e.currentLineLength := by
  unfold currentLineLength
  rcases lt_or_ge e.cursorLineIndex maxLines with hlt | hge
  · rw [line_of_lt hlt, Exec.ok_bind, h.strlen_row hlt]
    exact ⟨hlt, rfl⟩
  · rw [line_of_ge hge]
    exact h.overfull_of_ge hge

theorem applyKey_follows (h : e.Sane) (c : Byte) :
    Exec.Meets (fun _ => e.Overfull) (fun r => ∀ e' ∈ r, e.Follows e') (e.applyKey c) := by
  have hsome : ∀ {m : Exec XPTextEditor}, Exec.Meets (fun _ => e.Overfull) e.Follows m →
      Exec.Meets (fun _ => e.Overfull) (fun r => ∀ e' ∈ r, e.Follows e') (some <$> m) := by
    intro m hm
    refine hm.map fun e' he' e'' hmem => ?_
    rwa [← Option.mem_some_iff.mp hmem]
  have hsame : ∀ e' ∈ some e, e.Follows e' := fun e' hmem => Option.mem_some_iff.mp hmem ▸ h.follows
  have hnone : ∀ e' ∈ (none : Option XPTextEditor), e.Follows e' := fun e' hmem => absurd hmem (Option.not_mem_none e')
  unfold applyKey
  split_ifs with hbreak hfull hback hcolumn hline hup hdown hleft hright hprint
  · exact hnone
  · exact hsome (splitLine_follows h (not_le.mp hfull))
  · exact hsome (deleteInLine_follows h hcolumn)
  · exact hsome (joinLines_follows h hline)
  · exact hsame
  · exact hsome (moveUp_follows h)
  · exact hsome (moveDown_follows h)
  · exact hsome (moveLeft_follows h)
  · exact hsome (moveRight_follows h)
  · refine (currentLineLength_meets h).bind fun n hn => ?_
    split_ifs with hfull
    · exact hnone
    · exact hsome (insertCharacter_follows h hprint fun _ => hn.2 ▸ not_le.mp hfull)
  · exact hsame

theorem Sane.deselect (h : e.Sane) (c : Byte) : (e.deselect c).Sane := by
  unfold XPTextEditor.deselect
  split_ifs
  · exact ⟨h.rows, h.count_pos, h.count_le, h.cursor_lt, h.column_le, h.scroll_nonneg⟩
  · exact h

theorem overfull_deselect (c : Byte) : (e.deselect c).Overfull ↔ e.Overfull := by
  unfold XPTextEditor.deselect
  split_ifs <;> rfl

theorem Sane.scrolled (h : e.Sane) (d : Display) : (scrollToKeepCursorVisible d e).Sane := by
  refine ⟨h.rows, h.count_pos, h.count_le, h.cursor_lt, h.column_le, ?_⟩
  have hscroll := h.scroll_nonneg
  unfold scrollToKeepCursorVisible
  dsimp only
  split_ifs <;> omega

theorem handleKeyInput_follows (h : e.Sane) (d : Display) (c : Byte) :
    Exec.Meets (fun _ => e.Overfull) e.Follows (e.handleKeyInput d c) := by
  have hkey := applyKey_follows (h.deselect c) c
  unfold handleKeyInput
  refine (hkey.weaken fun _ => (overfull_deselect c).mp).bind fun r hr => ?_
  cases r with
  | none => exact ⟨h.deselect c, (overfull_deselect c).mp⟩
  | some e' =>
    have hfollows := hr e' (Option.mem_some_self e')
    exact ⟨hfollows.sane.scrolled d, fun hover => (overfull_deselect c).mp (hfollows.overfull hover)⟩

end Keys

end XPTextEditor

end DualFuse.Gui
