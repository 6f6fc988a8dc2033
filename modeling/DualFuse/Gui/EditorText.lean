import DualFuse.Gui.EditorRuns
import DualFuse.Library.FlatText

/-! The document as a flat text. Where no limit of the buffer is hit, a key does to the
newline-joined lines what the same key does to a text with one cursor. -/

namespace DualFuse.Gui

open Library Library.CString Utility

/-- A key, on a text with one cursor. -/
def flatKey (t : FlatText Byte) (c : Byte) : FlatText Byte :=
  if c = newline then t.insert newline
  else if c = backspace then t.delete
  else if c = arrowUp then t.up newline
  else if c = arrowDown then t.down newline
  else if c = arrowLeft then t.left
  else if c = arrowRight then t.right
  else if c.toNat ≥ 0x20 then t.insert c
  else t

namespace XPTextEditor

/-- The lines of the document. -/
def lines (e : XPTextEditor) : List (List Byte) := (List.range e.totalLineCount).map e.text

/-- The newline-joined document, with the cursor. -/
def flat (e : XPTextEditor) : FlatText Byte :=
  FlatText.ofLines newline e.lines e.cursorLineIndex e.cursorColumnIndex

/-- No limit is hit: the document fits into the buffer, a new line would too, a line that is
typed into is not full, and lines that are joined are not too long together. -/
structure WithinLimits (e : XPTextEditor) (c : Byte) : Prop where
  document : e.totalLineCount ≤ maxLines
  line : c = newline → e.totalLineCount < maxLines
  join : c = backspace → e.cursorColumnIndex = 0 → 0 < e.cursorLineIndex →
    (e.text (e.cursorLineIndex - 1)).length + (e.text e.cursorLineIndex).length < maxLineLength - 1
  character : 0x20 ≤ c.toNat → (e.text e.cursorLineIndex).length < maxLineLength - 1

/-! ### Lists of lines -/

/-- The texts from line `i` on. -/
def linesFrom (texts : ℕ → List Byte) (i n : ℕ) : List (List Byte) := (List.range' i n).map texts

section Lines
variable {e e' : XPTextEditor} {texts texts' : ℕ → List Byte} {count line column i j m n : ℕ} {scroll : ℤ}

theorem length_linesFrom : (linesFrom texts i n).length = n := by simp [linesFrom]

theorem linesFrom_succ : linesFrom texts i (n + 1) = texts i :: linesFrom texts (i + 1) n := by
  rw [linesFrom, List.range'_succ, List.map_cons, linesFrom]

theorem linesFrom_add : linesFrom texts i (m + n) = linesFrom texts i m ++ linesFrom texts (i + m) n := by
  rw [linesFrom, ← List.range'_append_1, List.map_append, linesFrom, linesFrom]

theorem linesFrom_congr (h : ∀ k, k < n → texts' (j + k) = texts (i + k)) :
    linesFrom texts' j n = linesFrom texts i n := by
  induction n generalizing i j with
  | zero => rfl
  | succ n ih =>
    rw [linesFrom_succ, linesFrom_succ, show texts' j = texts i from h 0 (Nat.succ_pos n)]
    refine congrArg _ (ih fun k hk => ?_)
    have hnext := h (k + 1) (by omega)
    rwa [Nat.add_right_comm j, Nat.add_right_comm i]

theorem Shows.lines_eq (h : e.Shows texts count line column scroll) (hcount : count ≤ maxLines) :
    e.lines = linesFrom texts 0 count := by
  rw [lines, h.count_eq, List.range_eq_range', linesFrom]
  refine List.map_congr_left fun i hi => h.text_eq ?_
  rw [List.mem_range'_1] at hi
  omega

theorem Shows.flat_eq (h : e.Shows texts count line column scroll) (hcount : count ≤ maxLines) :
    e.flat = FlatText.ofLines newline (linesFrom texts 0 count) line column := by
  rw [flat, h.lines_eq hcount, h.line_eq, h.column_eq]

/-- The lines around one of them. -/
theorem linesFrom_split (h : i < n) :
    linesFrom texts 0 n = linesFrom texts 0 i ++ texts i :: linesFrom texts (i + 1) (n - i - 1) := by
  rw [← linesFrom_succ, show n = i + (n - i - 1 + 1) by omega, linesFrom_add, Nat.zero_add]
  congr 2
  omega

end Lines

/-! ### Each key -/

section Keys
variable {e e' : XPTextEditor}

/-- The lines above the cursor. -/
def above (e : XPTextEditor) : List (List Byte) := linesFrom e.text 0 e.cursorLineIndex

/-- The lines below the cursor. -/
def below (e : XPTextEditor) : List (List Byte) :=
  linesFrom e.text (e.cursorLineIndex + 1) (e.totalLineCount - e.cursorLineIndex - 1)

/-- The line of the cursor, and its parts. -/
def current (e : XPTextEditor) : List Byte := e.text e.cursorLineIndex

def before (e : XPTextEditor) : List Byte := e.current.take e.cursorColumnIndex

def after (e : XPTextEditor) : List Byte := e.current.drop e.cursorColumnIndex

theorem length_above : e.above.length = e.cursorLineIndex := length_linesFrom

theorem before_append_after : e.before ++ e.after = e.current := List.take_append_drop _ _

section Document
variable (h : e.Sane) (hfits : e.totalLineCount ≤ maxLines)

include h hfits in
theorem cursor_lt_maxLines : e.cursorLineIndex < maxLines := lt_of_lt_of_le h.cursor_lt hfits

include h hfits in
theorem column_le_current : e.cursorColumnIndex ≤ e.current.length := h.column_le (cursor_lt_maxLines h hfits)

include hfits in
/-- A key that can stop only in a document that is too long. -/
theorem ok_of_meets {α : Type} {Q : α → Prop} {m : Exec α} (hm : Exec.Meets (fun _ => e.Overfull) Q m) :
    ∃ a, m = .ok a ∧ Q a :=
  Exec.meets_false_iff.mp (hm.weaken fun _ hover => absurd hfits (not_le.mpr hover))

include h hfits in
theorem length_before : e.before.length = e.cursorColumnIndex := by
  rw [before, List.length_take, min_eq_left (column_le_current h hfits)]

include h hfits in
theorem flat_current :
    e.flat = FlatText.ofLines newline (e.above ++ e.current :: e.below) e.above.length e.cursorColumnIndex := by
  rw [h.shows.flat_eq hfits, linesFrom_split h.cursor_lt, length_above]
  rfl

include h hfits in
theorem flat_parts :
    e.flat = FlatText.ofLines newline (e.above ++ (e.before ++ e.after) :: e.below) e.above.length e.before.length := by
  rw [flat_current h hfits, before_append_after, length_before h hfits]

include h hfits in
/-- A line that replaces the one of the cursor. -/
theorem lines_of_update {str : List Byte} {column : ℕ}
    (hshows : e'.Shows (Function.update e.text e.cursorLineIndex str) e.totalLineCount e.cursorLineIndex column
      e.verticalScrollOffset) :
    e'.lines = e.above ++ str :: e.below := by
  have habove : linesFrom (Function.update e.text e.cursorLineIndex str) 0 e.cursorLineIndex = e.above :=
    linesFrom_congr fun k hk => Function.update_of_ne (by omega) _ _
  have hbelow : linesFrom (Function.update e.text e.cursorLineIndex str) (e.cursorLineIndex + 1)
      (e.totalLineCount - e.cursorLineIndex - 1) = e.below :=
    linesFrom_congr fun k hk => Function.update_of_ne (by omega) _ _
  rw [hshows.lines_eq hfits, linesFrom_split h.cursor_lt, habove, hbelow, Function.update_self]

include h hfits in
theorem flat_of_update {str : List Byte} {column : ℕ}
    (hshows : e'.Shows (Function.update e.text e.cursorLineIndex str) e.totalLineCount e.cursorLineIndex column
      e.verticalScrollOffset) :
    e'.flat = FlatText.ofLines newline (e.above ++ str :: e.below) e.above.length column := by
  rw [flat, lines_of_update h hfits hshows, hshows.line_eq, hshows.column_eq, length_above]

include h hfits in
theorem flat_insertCharacter {c : Byte} (hc : 0x20 ≤ c.toNat) (hroom : e.current.length < maxLineLength - 1) :
    ∃ e', e.insertCharacter c = .ok e' ∧ e'.flat = e.flat.insert c := by
  obtain ⟨e', he', hshows⟩ := ok_of_meets hfits (insertCharacter_meets h hc fun _ => hroom)
  refine ⟨e', he', ?_⟩
  rw [flat_of_update h hfits hshows, flat_parts h hfits, FlatText.insert_ofLines, length_before h hfits]
  rfl

include h in
theorem lines_splitLine (hroom : e.totalLineCount < maxLines)
    (hshows : e'.Shows e.splitTexts (e.totalLineCount + 1) (e.cursorLineIndex + 1) 0 e.verticalScrollOffset) :
    e'.lines = e.above ++ e.before :: e.after :: e.below := by
  have hcursor := h.cursor_lt
  have habove : linesFrom e.splitTexts 0 e.cursorLineIndex = e.above :=
    linesFrom_congr fun k hk => if_pos (by omega)
  have hbefore : e.splitTexts e.cursorLineIndex = e.before := by
    rw [splitTexts, if_neg (lt_irrefl _), if_pos rfl]
    rfl
  have hafter : e.splitTexts (e.cursorLineIndex + 1) = e.after := by
    rw [splitTexts, if_neg (by omega), if_neg (by omega), if_pos rfl]
    rfl
  have hbelow : linesFrom e.splitTexts (e.cursorLineIndex + 1 + 1) (e.totalLineCount - e.cursorLineIndex - 1) =
      e.below := by
    refine linesFrom_congr fun k hk => ?_
    rw [splitTexts, if_neg (by omega), if_neg (by omega), if_neg (by omega), if_pos (by omega)]
    congr 1
    omega
  rw [hshows.lines_eq hroom, linesFrom_split (i := e.cursorLineIndex) (by omega),
    show e.totalLineCount + 1 - e.cursorLineIndex - 1 = e.totalLineCount - e.cursorLineIndex - 1 + 1 by omega,
    linesFrom_succ, habove, hbefore, hafter, hbelow]

include h in
theorem flat_splitLine (hroom : e.totalLineCount < maxLines) :
    ∃ e', e.splitLine = .ok e' ∧ e'.flat = e.flat.insert newline := by
  obtain ⟨e', he', hshows⟩ := Exec.meets_false_iff.mp (splitLine_meets h hroom)
  refine ⟨e', he', ?_⟩
  rw [flat, lines_splitLine h hroom hshows, hshows.line_eq, hshows.column_eq, flat_parts h hroom.le,
    FlatText.insert_break_ofLines, length_above]

include h hfits in
theorem flat_deleteInLine (hpos : 0 < e.cursorColumnIndex) :
    ∃ e', e.deleteInLine = .ok e' ∧ e'.flat = e.flat.delete := by
  have hcolumn := column_le_current h hfits
  obtain ⟨e', he', hshows⟩ := ok_of_meets hfits (deleteInLine_meets h hpos)
  refine ⟨e', he', ?_⟩
  obtain ⟨l, a, r, hcurrent, hlength⟩ : ∃ l a r, e.current = l ++ a :: r ∧ e.cursorColumnIndex = l.length + 1 := by
    have hlt : e.cursorColumnIndex - 1 < e.current.length := by omega
    refine ⟨e.current.take (e.cursorColumnIndex - 1), e.current[e.cursorColumnIndex - 1],
      e.current.drop (e.cursorColumnIndex - 1 + 1), ?_, ?_⟩
    · rw [← List.drop_eq_getElem_cons, List.take_append_drop]
    · rw [List.length_take]
      omega
  have hstr : e.current.take (e.cursorColumnIndex - 1) ++ e.current.drop e.cursorColumnIndex = l ++ r := by
    rw [hcurrent, hlength, Nat.add_sub_cancel, List.take_left, List.drop_length_add_append]
    rfl
  rw [flat_of_update h hfits hshows, show e.text e.cursorLineIndex = e.current from rfl, hstr, flat_current h hfits,
    hcurrent, hlength, FlatText.delete_ofLines, Nat.add_sub_cancel]

/-- The lines above the cursor, the last of them apart. -/
theorem above_eq (hpos : 0 < e.cursorLineIndex) :
    e.above = linesFrom e.text 0 (e.cursorLineIndex - 1) ++ [e.text (e.cursorLineIndex - 1)] := by
  rw [above, show e.cursorLineIndex = e.cursorLineIndex - 1 + 1 by omega, linesFrom_add, Nat.zero_add,
    Nat.add_sub_cancel]
  rfl

/-- The lines, where the cursor is not in the first. -/
theorem lines_of_pos (hpos : 0 < e.cursorLineIndex) :
    e.above ++ e.current :: e.below =
      linesFrom e.text 0 (e.cursorLineIndex - 1) ++ e.text (e.cursorLineIndex - 1) :: e.current :: e.below := by
  rw [above_eq hpos, List.append_assoc]
  rfl

/-- The lines, where the cursor is not in the last. -/
theorem below_eq (hlast : e.cursorLineIndex < e.totalLineCount - 1) :
    e.below = e.text (e.cursorLineIndex + 1) ::
      linesFrom e.text (e.cursorLineIndex + 2) (e.totalLineCount - e.cursorLineIndex - 2) := by
  rw [below, show e.totalLineCount - e.cursorLineIndex - 1 = e.totalLineCount - e.cursorLineIndex - 2 + 1 by omega,
    linesFrom_succ]

theorem below_eq_nil (hlast : ¬e.cursorLineIndex < e.totalLineCount - 1) : e.below = [] := by
  rw [below, show e.totalLineCount - e.cursorLineIndex - 1 = 0 by omega]
  rfl

include h hfits in
theorem flat_below (hpos : 0 < e.cursorLineIndex) :
    e.flat = FlatText.ofLines newline
      (linesFrom e.text 0 (e.cursorLineIndex - 1) ++ e.text (e.cursorLineIndex - 1) :: e.current :: e.below)
      ((linesFrom e.text 0 (e.cursorLineIndex - 1)).length + 1) e.cursorColumnIndex := by
  rw [flat_current h hfits, lines_of_pos hpos, length_above, length_linesFrom, Nat.sub_add_cancel hpos]

include h hfits in
theorem flat_joinLines (hpos : 0 < e.cursorLineIndex) (hcolumn : e.cursorColumnIndex = 0)
    (hshort : (e.text (e.cursorLineIndex - 1)).length + (e.text e.cursorLineIndex).length < maxLineLength - 1) :
    ∃ e', e.joinLines = .ok e' ∧ e'.flat = e.flat.delete := by
  have hcursor := h.cursor_lt
  obtain ⟨e', he', hjoin⟩ := ok_of_meets hfits (joinLines_meets h hpos)
  rw [if_pos hshort] at hjoin
  refine ⟨e', he', ?_⟩
  have habove : linesFrom e.joinTexts 0 (e.cursorLineIndex - 1) = linesFrom e.text 0 (e.cursorLineIndex - 1) := by
    refine linesFrom_congr fun k hk => ?_
    rw [joinTexts, if_neg (by omega), if_pos (by omega)]
  have hjoined : e.joinTexts (e.cursorLineIndex - 1) = e.text (e.cursorLineIndex - 1) ++ e.current := if_pos rfl
  have hbelow : linesFrom e.joinTexts (e.cursorLineIndex - 1 + 1)
      (e.totalLineCount - 1 - (e.cursorLineIndex - 1) - 1) = e.below := by
    rw [show e.totalLineCount - 1 - (e.cursorLineIndex - 1) - 1 = e.totalLineCount - e.cursorLineIndex - 1 by omega]
    refine linesFrom_congr fun k hk => ?_
    rw [joinTexts, if_neg (by omega), if_neg (by omega), if_pos (by omega)]
    congr 1
    omega
  rw [hjoin.flat_eq (by omega), linesFrom_split (i := e.cursorLineIndex - 1) (by omega), habove, hjoined, hbelow,
    flat_below h hfits hpos, hcolumn, FlatText.delete_break_ofLines, length_linesFrom]

/-! ### Moves -/

include h in
theorem newline_not_mem_text {i : ℕ} (hi : i < maxLines) : newline ∉ e.text i := fun hmem =>
  (h.rows i hi).all newline (mem_row_of_mem_text hmem) rfl

include h hfits in
/-- A move leaves the lines as they are. -/
theorem flat_of_move {line column : ℕ}
    (hshows : e'.Shows e.text e.totalLineCount line column e.verticalScrollOffset) :
    e'.flat = FlatText.ofLines newline (e.above ++ e.current :: e.below) line column := by
  rw [hshows.flat_eq hfits, linesFrom_split h.cursor_lt]
  rfl

include h hfits in
theorem flat_moveUp : ∃ e', e.moveUp = .ok e' ∧ e'.flat = e.flat.up newline := by
  have hlt := cursor_lt_maxLines h hfits
  have hcurrent : newline ∉ e.current := newline_not_mem_text h hlt
  have hcolumn := column_le_current h hfits
  obtain ⟨e', he', hmove⟩ := ok_of_meets hfits (moveUp_meets h)
  refine ⟨e', he', ?_⟩
  split_ifs at hmove with hpos
  · have hprev : newline ∉ e.text (e.cursorLineIndex - 1) := newline_not_mem_text h (by omega)
    rw [flat_of_move h hfits hmove, lines_of_pos hpos, flat_below h hfits hpos,
      FlatText.up_ofLines hcurrent hcolumn hprev, length_linesFrom]
  · have habove : e.above = [] := List.length_eq_zero_iff.mp (length_above.trans (by omega))
    rw [hmove, flat_current h hfits, habove]
    exact (FlatText.up_ofLines_first hcurrent hcolumn).symm

include h hfits in
theorem flat_moveDown : ∃ e', e.moveDown = .ok e' ∧ e'.flat = e.flat.down newline := by
  have hcurrent : newline ∉ e.current := newline_not_mem_text h (cursor_lt_maxLines h hfits)
  have hcolumn := column_le_current h hfits
  obtain ⟨e', he', hmove⟩ := ok_of_meets hfits (moveDown_meets h)
  refine ⟨e', he', ?_⟩
  split_ifs at hmove with hlast
  · have hnext : newline ∉ e.text (e.cursorLineIndex + 1) := newline_not_mem_text h (by omega)
    rw [flat_of_move h hfits hmove, flat_current h hfits, below_eq hlast, FlatText.down_ofLines hcurrent hcolumn hnext,
      length_above]
  · rw [hmove, flat_current h hfits, below_eq_nil hlast, FlatText.down_ofLines_last hcurrent hcolumn]

include h hfits in
theorem flat_moveLeft : ∃ e', e.moveLeft = .ok e' ∧ e'.flat = e.flat.left := by
  obtain ⟨e', he', hmove⟩ := ok_of_meets hfits (moveLeft_meets h)
  refine ⟨e', he', ?_⟩
  split_ifs at hmove with hcolumn hpos
  · obtain ⟨c, hc⟩ : ∃ c, e.cursorColumnIndex = c + 1 := ⟨e.cursorColumnIndex - 1, by omega⟩
    rw [flat_of_move h hfits hmove, flat_current h hfits, hc, FlatText.left_ofLines_succ, length_above,
      Nat.add_sub_cancel]
  · rw [flat_of_move h hfits hmove, lines_of_pos hpos, flat_below h hfits hpos, Nat.eq_zero_of_not_pos hcolumn,
      FlatText.left_ofLines_zero, length_linesFrom]
  · rw [hmove, flat, Nat.eq_zero_of_not_pos hcolumn, Nat.eq_zero_of_not_pos hpos, FlatText.left_ofLines_first]

include h hfits in
theorem flat_moveRight : ∃ e', e.moveRight = .ok e' ∧ e'.flat = e.flat.right := by
  have hle := column_le_current h hfits
  obtain ⟨e', he', hmove⟩ := ok_of_meets hfits (moveRight_meets h)
  refine ⟨e', he', ?_⟩
  split_ifs at hmove with hcolumn hlast
  · have hinside : e.cursorColumnIndex < e.current.length := hcolumn
    rw [flat_of_move h hfits hmove, flat_current h hfits, FlatText.right_ofLines hinside, length_above]
  · have hend : e.cursorColumnIndex = e.current.length := le_antisymm hle (not_lt.mp hcolumn)
    rw [flat_of_move h hfits hmove, flat_current h hfits, below_eq hlast, hend, FlatText.right_ofLines_end, length_above]
  · have hend : e.cursorColumnIndex = e.current.length := le_antisymm hle (not_lt.mp hcolumn)
    rw [hmove, flat_current h hfits, below_eq_nil hlast, hend, FlatText.right_ofLines_last]

end Document

/-! ### The refinement -/

theorem flat_deselect (c : Byte) : (e.deselect c).flat = e.flat := by
  unfold deselect
  split_ifs <;> rfl

theorem WithinLimits.deselect {c : Byte} (h : e.WithinLimits c) : (e.deselect c).WithinLimits c := by
  unfold XPTextEditor.deselect
  split_ifs
  · exact ⟨h.document, h.line, h.join, h.character⟩
  · exact h

theorem flat_applyKey (h : e.Sane) {c : Byte} (hlimits : e.WithinLimits c) :
    ∃ e', e.applyKey c = .ok (some e') ∧ e'.flat = flatKey e.flat c := by
  have hfits := hlimits.document
  have hsome : ∀ {m : Exec XPTextEditor} {t : FlatText Byte}, (∃ e', m = .ok e' ∧ e'.flat = t) →
      ∃ e', some <$> m = .ok (some e') ∧ e'.flat = t := by
    rintro m t ⟨e', rfl, he'⟩
    exact ⟨e', rfl, he'⟩
  unfold applyKey flatKey
  split_ifs with hbreak hfull hback hcolumn hline hup hdown hleft hright hprint
  · exact absurd (hlimits.line hbreak) (not_lt.mpr hfull)
  · exact hsome (flat_splitLine h (not_le.mp hfull))
  · exact hsome (flat_deleteInLine h hfits hcolumn)
  · exact hsome (flat_joinLines h hfits hline (Nat.eq_zero_of_not_pos hcolumn)
      (hlimits.join hback (Nat.eq_zero_of_not_pos hcolumn) hline))
  · refine ⟨e, rfl, ?_⟩
    have hoffset : e.flat.offset = 0 := by
      rw [flat, Nat.eq_zero_of_not_pos hcolumn, Nat.eq_zero_of_not_pos hline]
      rfl
    exact (FlatText.delete_of_offset_eq_zero hoffset).symm
  · exact hsome (flat_moveUp h hfits)
  · exact hsome (flat_moveDown h hfits)
  · exact hsome (flat_moveLeft h hfits)
  · exact hsome (flat_moveRight h hfits)
  · have hshort := hlimits.character hprint
    rw [currentLineLength, line_of_lt (cursor_lt_maxLines h hfits), Exec.ok_bind,
      h.strlen_row (cursor_lt_maxLines h hfits), Exec.ok_bind, if_neg (not_le.mpr hshort)]
    exact hsome (flat_insertCharacter h hfits hprint hshort)
  · exact ⟨e, rfl, rfl⟩

theorem flat_handleKeyInput (h : e.Sane) (d : Display) {c : Byte} (hlimits : e.WithinLimits c) :
    ∃ e', e.handleKeyInput d c = .ok e' ∧ e'.flat = flatKey e.flat c := by
  obtain ⟨e', he', hflat⟩ := flat_applyKey (h.deselect c) hlimits.deselect
  refine ⟨scrollToKeepCursorVisible d e', ?_, ?_⟩
  · rw [handleKeyInput, he', Exec.ok_bind]
  · rw [flat_deselect] at hflat
    exact hflat

end Keys

end XPTextEditor

namespace Desktop

theorem run_sane {d : Display} {events : List Event} {s : Desktop} (h : run (step d) start events = .ok s) : s.Sane :=
  run_invariant (fun _ o _ hs hstep => ((Exec.meets_iff.mp (step_follows hs o)).1 _ hstep).1) start_fits.1 h

/-- In every state that a run reaches, a key that hits no limit does to the flat text of its
editor what the key does to a flat text, and the other editors stay as they are. -/
theorem key_refines_flatKey {d : Display} {events : List Event} {s : Desktop}
    (hrun : run (step d) start events = .ok s) {i : ℕ} {e : XPTextEditor} (he : s.editors[i]? = some e) {c : Byte}
    (hlimits : e.WithinLimits c) :
    ∃ e', step d s (.key i c) = .ok ⟨s.editors.set i e', s.clipboard⟩ ∧ e'.flat = flatKey e.flat c := by
  obtain ⟨e', he', hflat⟩ := XPTextEditor.flat_handleKeyInput (run_sane hrun e (mem_of_mem_get he)) d hlimits
  refine ⟨e', ?_, hflat⟩
  rw [step, update, he]
  dsimp only
  rw [he']
  rfl

/-- A character typed into a window that was just opened. -/
theorem key_refines_flatKey_opened :
    ∃ e', step sampleDisplay ⟨[XPTextEditor.create sampleDisplay ⟨80, 80, 550, 480⟩], ⟨[], false⟩⟩ (.key 0 0x61) =
        .ok ⟨[e'], ⟨[], false⟩⟩ ∧ e'.flat = ⟨[0x61], 1⟩ := by
  have hrun : run (step sampleDisplay) start [.openWindow ⟨80, 80, 550, 480⟩ none] =
      .ok ⟨[XPTextEditor.create sampleDisplay ⟨80, 80, 550, 480⟩], ⟨[], false⟩⟩ := rfl
  have hlimits : (XPTextEditor.create sampleDisplay ⟨80, 80, 550, 480⟩).WithinLimits 0x61 :=
    ⟨by decide, by decide, by decide, fun _ => by decide⟩
  obtain ⟨e', he', hflat⟩ := key_refines_flatKey hrun (i := 0) rfl hlimits
  exact ⟨e', he', hflat.trans (by decide)⟩

end Desktop

end DualFuse.Gui
