import DualFuse.Gui.EditorInvariant

/-! Runs of the editors of all windows. Keys, menu and moves of the window never leave the
buffer of an editor whose document fits into it. A click reads the row under the mouse
before it compares the line with those of the document, and a file of more than 512 lines
leaves a line count that the buffer does not have. -/

namespace DualFuse.Gui

open Library Library.CString Utility

namespace XPTextEditor

section Steps
variable {e e' : XPTextEditor}

/-- Fields that the invariant does not speak of. -/
theorem follows_of_eq (h : e.Sane) (hbuffer : e'.lineBuffer = e.lineBuffer)
    (hcount : e'.totalLineCount = e.totalLineCount) (hline : e'.cursorLineIndex = e.cursorLineIndex)
    (hcolumn : e'.cursorColumnIndex = e.cursorColumnIndex)
    (hscroll : e'.verticalScrollOffset = e.verticalScrollOffset) : e.Follows e' := by
  have hshows : e'.Shows e.text e.totalLineCount e.cursorLineIndex e.cursorColumnIndex e.verticalScrollOffset :=
    ⟨hbuffer ▸ h.rows, hcount, hline, hcolumn, hscroll⟩
  exact hshows.follows h h.count_pos le_rfl h.cursor_lt h.column_le rfl

/-- An empty document. -/
theorem sane_of_blank (hbuffer : e.lineBuffer = fun _ => blankLine) (hcount : e.totalLineCount = 1)
    (hline : e.cursorLineIndex = 0) (hcolumn : e.cursorColumnIndex = 0) (hscroll : e.verticalScrollOffset = 0) :
    e.Sane := by
  have hshows : e.Shows (fun _ => []) 1 0 0 0 := ⟨fun i _ => hbuffer ▸ rowHolds_blankLine, hcount, hline, hcolumn, hscroll⟩
  exact hshows.sane Nat.one_pos (by decide) Nat.one_pos (fun _ => Nat.zero_le _) le_rfl

theorem copyLines_meets (h : e.Sane) {n i : ℕ} (hn : i + n ≤ e.totalLineCount) (written : List Byte) :
    Exec.Meets (fun _ => e.Overfull) (fun _ => True) (e.copyLines n i written) := by
  induction n generalizing i written with
  | zero => trivial
  | succ n ih =>
    unfold copyLines
    rcases lt_or_ge i maxLines with hlt | hge
    · rw [line_of_lt hlt, Exec.ok_bind, h.strlen_row hlt, Exec.ok_bind]
      split
      · trivial
      · exact ih (by omega) _
    · rw [line_of_ge hge]
      exact lt_of_le_of_lt hge (by omega)

theorem paste_follows (h : e.Sane) (d : Display) (l : List Byte) :
    Exec.Meets (fun _ => e.Overfull) e.Follows (run (handleKeyInput d) e l) := by
  have hrun : ∀ e₁, e.Follows e₁ → Exec.Meets (fun _ => e.Overfull) e.Follows (run (handleKeyInput d) e₁ l) := by
    induction l with
    | nil => exact fun e₁ h₁ => h₁
    | cons c l ih =>
      intro e₁ h₁
      rw [run_cons]
      refine ((handleKeyInput_follows h₁.sane d c).weaken fun _ => h₁.overfull).bind fun e₂ h₂ => ih e₂ (h₁.trans h₂)
  exact hrun e h.follows

theorem executeContextMenuAction_follows (h : e.Sane) (d : Display) (clipboard : Clipboard) (item : ℤ) :
    Exec.Meets (fun _ => e.Overfull) (fun r => e.Follows r.1) (e.executeContextMenuAction d clipboard item) := by
  unfold executeContextMenuAction
  split_ifs
  · exact follows_of_eq h rfl rfl rfl rfl rfl
  · exact (copyLines_meets h (by omega) []).bind fun _ _ => h.follows
  · exact (paste_follows h d clipboard.text).bind fun _ h' => h'
  · exact h.follows
  · have hfits : ¬maxLines < 1 := by decide
    exact ⟨sane_of_blank rfl rfl rfl rfl rfl, fun hover => absurd hover hfits⟩
  · exact h.follows

/-- The click is at a line of the buffer. -/
def ClickInside (d : Display) (e : XPTextEditor) (mouseX mouseY : ℤ) : Prop :=
  0 ≤ e.clickRelativeX mouseX → 0 ≤ e.clickRelativeY mouseY → e.clickedLineIndex d mouseY < maxLines

theorem clickedLineIndex_nonneg (h : e.Sane) (d : Display) {mouseY : ℤ} (hy : 0 ≤ e.clickRelativeY mouseY) :
    0 ≤ e.clickedLineIndex d mouseY :=
  add_nonneg (Int.tdiv_nonneg hy (Int.natCast_nonneg _)) h.scroll_nonneg

/-- A click in the buffer places the cursor in the document, a click outside stops. -/
theorem placeCursor_follows (h : e.Sane) (d : Display) (mouseX mouseY : ℤ) :
    Exec.Meets (fun _ => ¬e.ClickInside d mouseX mouseY)
      (fun e' => e.ClickInside d mouseX mouseY ∧ e.Follows e') (e.placeCursor d mouseX mouseY) := by
  have hcount := h.count_pos
  unfold placeCursor
  split_ifs with hout
  · exact ⟨fun hx hy => absurd hout (by omega), h.follows⟩
  · have hy : 0 ≤ e.clickRelativeY mouseY := by omega
    have hclicked := clickedLineIndex_nonneg h d hy
    rw [if_pos hclicked]
    rcases lt_or_ge (e.clickedLineIndex d mouseY).toNat maxLines with hlt | hge
    · have hinside : e.ClickInside d mouseX mouseY := fun _ _ => by omega
      have hindex : ∀ {n : ℕ}, n = (if e.clickedLineIndex d mouseY ≥ e.totalLineCount then e.totalLineCount - 1
          else (e.clickedLineIndex d mouseY).toNat) → n < maxLines ∧ n < e.totalLineCount := by
        intro n hn
        split_ifs at hn <;> omega
      rw [line_of_lt hlt, Exec.ok_bind]
      dsimp only
      rw [h.strlen_row hlt, Exec.ok_bind]
      obtain ⟨hmax, htotal⟩ := hindex rfl
      refine Exec.Meets.mono (clampCursorColumnToLineEnd_meets ?_ ?_ _) fun e' hshows => ⟨hinside, ?_⟩
      · exact h.rows
      · exact hmax
      · exact hshows.follows h h.count_pos le_rfl htotal (fun _ => min_le_right _ _) rfl
    · rw [line_of_ge hge]
      exact fun hinside => absurd (hinside (by omega) (by omega)) (by omega)

/-- A click that reads a row is at a line of the buffer. -/
def MouseInside (d : Display) (e : XPTextEditor) (x y : ℤ) (leftClicked rightClicked : Bool) : Prop :=
  e.contextMenuIsOpen = false → rightClicked = false → leftClicked = true → e.ClickInside d x y

theorem handleMouse_follows (h : e.Sane) (d : Display) (clipboard : Clipboard) (x y : ℤ)
    (leftClicked rightClicked : Bool) :
    Exec.Meets (fun _ => ¬e.MouseInside d x y leftClicked rightClicked ∨ e.Overfull)
      (fun r => e.MouseInside d x y leftClicked rightClicked ∧ e.Follows r.1)
      (e.handleMouse d clipboard x y leftClicked rightClicked) := by
  unfold handleMouse
  by_cases hopen : e.contextMenuIsOpen = true
  · have hinside : e.MouseInside d x y leftClicked rightClicked := fun hclosed =>
      Bool.noConfusion (hclosed.symm.trans hopen)
    rw [if_pos hopen]
    dsimp only
    split_ifs with hleft hitem
    · have hmenu : e.Follows { e with contextMenuHoveredItemIndex := e.hoveredItemIndex x y, contextMenuIsOpen := false } :=
        follows_of_eq h rfl rfl rfl rfl rfl
      refine ((executeContextMenuAction_follows hmenu.sane d clipboard _).weaken fun _ hover => ?_).mono fun r hr => ?_
      · exact .inr (hmenu.overfull hover)
      · exact ⟨hinside, hmenu.trans hr⟩
    · exact ⟨hinside, follows_of_eq h rfl rfl rfl rfl rfl⟩
    · exact ⟨hinside, follows_of_eq h rfl rfl rfl rfl rfl⟩
  · rw [if_neg hopen]
    split_ifs with hright hleft
    · exact ⟨fun _ hnot => Bool.noConfusion (hnot.symm.trans hright), follows_of_eq h rfl rfl rfl rfl rfl⟩
    · have hclosed : e.Follows { e with allTextIsSelected := false, contextMenuIsOpen := false } :=
        follows_of_eq h rfl rfl rfl rfl rfl
      refine Exec.Meets.bind ((placeCursor_follows hclosed.sane d x y).weaken fun _ hout => ?_) fun e' he' => ?_
      · exact .inl fun hinside => hout (hinside (Bool.not_eq_true _ ▸ hopen) (Bool.not_eq_true _ ▸ hright) hleft)
      · exact ⟨fun _ _ _ => he'.1, hclosed.trans he'.2⟩
    · exact ⟨fun _ _ hclick => absurd hclick hleft, h.follows⟩

/-! ### Loading -/

/-- The document of a load in progress is blank apart from its rows. -/
structure LoadSane (l : Loading) : Prop where
  rows : ∀ i < maxLines, RowHolds (l.editor.lineBuffer i) (l.editor.text i)
  line_le : l.lineIndex ≤ maxLines
  cursor_eq : l.editor.cursorLineIndex = 0
  column_eq : l.editor.cursorColumnIndex = 0
  scroll_eq : l.editor.verticalScrollOffset = 0

theorem loadByte_meets {l : Loading} (h : LoadSane l) (b : Byte) :
    ∃ l', loadByte l b = .ok l' ∧ LoadSane l' ∧
      l'.lineIndex = min (l.lineIndex + if b = newline then 1 else 0) maxLines := by
  have hline := h.line_le
  unfold loadByte
  split_ifs with hlt hbreak hprint
  · exact ⟨_, rfl, ⟨h.rows, hlt, h.cursor_eq, h.column_eq, h.scroll_eq⟩, (min_eq_left hlt).symm⟩
  · obtain ⟨row, hrow, hfilled⟩ := (h.rows _ hlt).setAt (i := l.column) (a := b)
      (hprint.2.trans (by decide)) (.inr (by have := hprint.2; unfold maxLineLength at *; omega)) hbreak
    obtain ⟨row', hrow', hfilled'⟩ := hfilled.setAt (i := l.column + 1) (a := 0)
      (by have := hprint.2; unfold maxLineLength at *; omega) (.inl rfl) (by decide)
    rw [line_of_lt hlt, Exec.ok_bind, hrow, Exec.ok_bind, hrow', Exec.ok_bind, setLine_of_lt hlt, Exec.ok_bind]
    refine ⟨_, rfl, ⟨fun i hi => ?_, hline, h.cursor_eq, h.column_eq, h.scroll_eq⟩, by dsimp only; omega⟩
    unfold text
    dsimp only
    rcases eq_or_ne i l.lineIndex with rfl | hne
    · rw [Function.update_self]
      exact hfilled'
    · rw [Function.update_of_ne hne]
      exact h.rows i hi
  · exact ⟨l, rfl, h, by omega⟩
  · exact ⟨l, rfl, h, by omega⟩
  · exact ⟨l, rfl, h, by omega⟩

theorem load_meets {l : Loading} (h : LoadSane l) (bytes : List Byte) :
    ∃ l', run loadByte l bytes = .ok l' ∧ LoadSane l' ∧
      l'.lineIndex = min (l.lineIndex + bytes.count newline) maxLines := by
  induction bytes generalizing l with
  | nil => exact ⟨l, rfl, h, (min_eq_left h.line_le).symm⟩
  | cons b bytes ih =>
    obtain ⟨l₁, hl₁, hsane₁, hline₁⟩ := loadByte_meets h b
    obtain ⟨l₂, hl₂, hsane₂, hline₂⟩ := ih hsane₁
    refine ⟨l₂, by rw [run_cons, hl₁, Exec.ok_bind, hl₂], hsane₂, ?_⟩
    rw [hline₂, hline₁, List.count_cons]
    by_cases hb : b = newline
    · simp only [hb, beq_self_eq_true, if_true]
      omega
    · simp only [hb, beq_iff_eq, if_false]
      omega

theorem loadSane_create (d : Display) (w : XPWindow) : LoadSane ⟨create d w, 0, 0⟩ :=
  ⟨fun _ _ => rowHolds_blankLine, Nat.zero_le _, rfl, rfl, rfl⟩

/-- The file ends in the buffer. -/
def FileFits (file : Option (List Byte)) : Prop := ∀ bytes ∈ file, bytes.count newline < maxLines

/-- Opening never stops, and leaves a document that is too long unless the file fits. -/
theorem openWindow_ok (d : Display) (w : XPWindow) (file : Option (List Byte)) :
    ∃ e, openWindow d w file = .ok e ∧ e.Sane ∧ (e.Overfull ↔ ¬FileFits file) := by
  cases file with
  | none =>
    have hfits : ¬maxLines < 1 := by decide
    refine ⟨create d w, rfl, sane_of_blank rfl rfl rfl rfl rfl, iff_of_false hfits (not_not.mpr ?_)⟩
    exact fun bytes hmem => absurd hmem (Option.not_mem_none bytes)
  | some bytes =>
    obtain ⟨l, hl, hsane, hline⟩ := load_meets (loadSane_create d w) bytes
    rw [openWindow, hl, Exec.ok_bind]
    have hshows : XPTextEditor.Shows { l.editor with totalLineCount := l.lineIndex + 1 } l.editor.text
        (l.lineIndex + 1) 0 0 0 := ⟨hsane.rows, rfl, hsane.cursor_eq, hsane.column_eq, hsane.scroll_eq⟩
    refine ⟨_, rfl, ?_, ?_⟩
    · have hle := hsane.line_le
      exact hshows.sane (Nat.succ_pos _) (by omega) (Nat.succ_pos _) (fun _ => Nat.zero_le _) le_rfl
    · have hfits : FileFits (some bytes) ↔ bytes.count newline < maxLines :=
        ⟨fun h => h bytes (Option.mem_some_self bytes), fun h b hb => Option.mem_some_iff.mp hb ▸ h⟩
      have hover : maxLines < l.lineIndex + 1 ↔ ¬bytes.count newline < maxLines := by
        dsimp only at hline
        omega
      rw [hfits]
      exact hover

end Steps

end XPTextEditor

/-! ### Runs -/

namespace XPTextEditor

/-- What is to hold of an editor: the cursor is in a document that fits into the buffer, and
every row of the buffer ends in itself. -/
structure Valid (e : XPTextEditor) : Prop where
  count_pos : 1 ≤ e.totalLineCount
  count_le : e.totalLineCount ≤ maxLines
  cursor_lt : e.cursorLineIndex < e.totalLineCount
  column_le : e.cursorColumnIndex ≤ (e.text e.cursorLineIndex).length
  terminated : ∀ i < maxLines, (e.lineBuffer i).length = maxLineLength ∧ 0 ∈ e.lineBuffer i

theorem Sane.valid {e : XPTextEditor} (h : e.Sane) (hfits : ¬e.Overfull) : e.Valid :=
  ⟨h.count_pos, not_lt.mp hfits, h.cursor_lt, h.column_le (lt_of_lt_of_le h.cursor_lt (not_lt.mp hfits)),
    fun i hi => ⟨(h.rows i hi).length, (h.rows i hi).holds.mem⟩⟩

end XPTextEditor

namespace Desktop

/-- All editors are valid. -/
def Valid (s : Desktop) : Prop := ∀ e ∈ s.editors, e.Valid

/-- The event reads no row that does not exist and counts no line that does not. -/
def Inside (d : Display) (s : Desktop) : Event → Prop
  | .openWindow _ file => XPTextEditor.FileFits file
  | .mouse i x y leftClicked rightClicked =>
    ∀ e ∈ s.editors[i]?, e.MouseInside d x y leftClicked rightClicked
  | .onMove _ _ | .key _ _ | .menu _ _ => True

/-- The invariant of all editors. -/
def Sane (s : Desktop) : Prop := ∀ e ∈ s.editors, e.Sane

/-- One editor changes, and the others stay. -/
theorem update_meets {s : Desktop} {P : XPTextEditor → Prop} {E : Stop → Prop} {i : ℕ}
    {f : XPTextEditor → Exec (XPTextEditor × Clipboard)} (hs : ∀ e ∈ s.editors, P e)
    (hf : ∀ e ∈ s.editors[i]?, Exec.Meets E (fun r => P r.1) (f e)) :
    Exec.Meets E (fun s' => ∀ e ∈ s'.editors, P e) (s.update i f) := by
  unfold update
  cases hi : s.editors[i]? with
  | none => exact hs
  | some e =>
    refine (hf e hi).bind fun r hr e' he' => ?_
    rcases List.mem_or_eq_of_mem_set he' with hmem | rfl
    · exact hs e' hmem
    · exact hr

section Steps
variable {d : Display} {s : Desktop}

theorem mem_of_mem_get {i : ℕ} {e : XPTextEditor} (h : e ∈ s.editors[i]?) : e ∈ s.editors := List.mem_of_getElem? h

/-- The editor is sane, and too long only where one of the editors was. -/
def Follows (s : Desktop) (e : XPTextEditor) : Prop := e.Sane ∧ (e.Overfull → ∃ e' ∈ s.editors, e'.Overfull)

theorem Sane.follows (h : s.Sane) : ∀ e ∈ s.editors, s.Follows e := fun e he => ⟨h e he, fun hover => ⟨e, he, hover⟩⟩

theorem follows_of_mem {e e' : XPTextEditor} (he : e ∈ s.editors) (h : e.Follows e') : s.Follows e' :=
  ⟨h.sane, fun hover => ⟨e, he, h.overfull hover⟩⟩

theorem step_follows (h : s.Sane) (o : Event) :
    Exec.Meets (fun _ => ¬Inside d s o ∨ ∃ e ∈ s.editors, e.Overfull)
      (fun s' => s'.Sane ∧ (Inside d s o → ∀ e ∈ s'.editors, s.Follows e)) (step d s o) := by
  have hupdate : ∀ {i f}, (∀ e ∈ s.editors[i]?,
        Exec.Meets (fun _ => ¬Inside d s o ∨ e.Overfull) (fun r => e.Follows r.1) (f e)) →
      Exec.Meets (fun _ => ¬Inside d s o ∨ ∃ e ∈ s.editors, e.Overfull)
        (fun s' => s'.Sane ∧ (Inside d s o → ∀ e ∈ s'.editors, s.Follows e)) (s.update i f) := by
    intro i f hf
    refine (update_meets h.follows fun e he => ?_).mono fun s' hs' => ⟨fun e he => (hs' e he).1, fun _ => hs'⟩
    refine ((hf e he).weaken fun _ hstop => ?_).mono fun r hr => follows_of_mem (mem_of_mem_get he) hr
    exact hstop.imp_right fun hover => ⟨e, mem_of_mem_get he, hover⟩
  cases o with
  | openWindow w file =>
    obtain ⟨e, he, hsane, hover⟩ := XPTextEditor.openWindow_ok d w file
    rw [step, he, Exec.ok_bind]
    refine ⟨List.forall_mem_append.mpr ⟨h, List.forall_mem_singleton.mpr hsane⟩, fun hfits => ?_⟩
    refine List.forall_mem_append.mpr ⟨h.follows, List.forall_mem_singleton.mpr ⟨hsane, fun hlong => ?_⟩⟩
    exact absurd hfits (hover.mp hlong)
  | onMove i w =>
    refine hupdate fun e he => ?_
    exact XPTextEditor.follows_of_eq (h e (mem_of_mem_get he)) rfl rfl rfl rfl rfl
  | key i c =>
    refine hupdate fun e he => Exec.Meets.bind (P := e.Follows) ?_ fun e' he' => he'
    exact (XPTextEditor.handleKeyInput_follows (h e (mem_of_mem_get he)) d c).weaken fun _ => Or.inr
  | menu i item =>
    refine hupdate fun e he => ?_
    exact (XPTextEditor.executeContextMenuAction_follows (h e (mem_of_mem_get he)) d s.clipboard item).weaken
      fun _ => Or.inr
  | mouse i x y leftClicked rightClicked =>
    refine hupdate fun e he => ?_
    refine ((XPTextEditor.handleMouse_follows (h e (mem_of_mem_get he)) d s.clipboard x y leftClicked
      rightClicked).weaken fun _ hstop => ?_).mono fun r hr => hr.2
    exact hstop.imp_left fun hout hinside => hout (hinside e he)

/-- The invariant of a run in which every event stays inside. -/
def Fits (s : Desktop) : Prop := s.Sane ∧ ∀ e ∈ s.editors, ¬e.Overfull

theorem Fits.valid (h : s.Fits) : s.Valid := fun e he => (h.1 e he).valid (h.2 e he)

theorem step_fits (h : s.Fits) {o : Event} (ho : Inside d s o) : Exec.Meets (fun _ => False) Fits (step d s o) := by
  have hnone : ¬∃ e ∈ s.editors, e.Overfull := fun ⟨e, he, hover⟩ => h.2 e he hover
  refine ((step_follows h.1 o).weaken fun _ hstop => ?_).mono fun s' hs' => ⟨hs'.1, fun e he hover => ?_⟩
  · exact hstop.elim (fun hout => hout ho) hnone
  · exact hnone ((hs'.2 ho e he).2 hover)

/-- An event after which all editors are valid stayed inside. -/
theorem inside_of_valid (h : s.Fits) {o : Event} (ho : Exec.Meets (fun _ => False) Valid (step d s o)) :
    Inside d s o := by
  cases o with
  | openWindow w file =>
    obtain ⟨e, he, -, hover⟩ := XPTextEditor.openWindow_ok d w file
    rw [step, he, Exec.ok_bind] at ho
    have hvalid := ho e (List.mem_append_right _ (List.mem_singleton_self e))
    exact not_not.mp fun hfits => absurd (hover.mpr hfits) (not_lt.mpr hvalid.count_le)
  | onMove i w => trivial
  | key i c => trivial
  | menu i item => trivial
  | mouse i x y leftClicked rightClicked =>
    intro e he
    obtain ⟨s', hs', -⟩ := Exec.meets_false_iff.mp ho
    rw [step, update, he] at hs'
    obtain ⟨r, hr, -⟩ := Exec.bind_ok_iff.mp hs'
    have hmouse := XPTextEditor.handleMouse_follows (h.1 e (mem_of_mem_get he)) d s.clipboard x y leftClicked rightClicked
    rw [hr] at hmouse
    exact hmouse.1

end Steps

theorem start_fits : start.Fits :=
  ⟨fun _ he => absurd he List.not_mem_nil, fun _ he => absurd he List.not_mem_nil⟩

/-- In every run all editors stay valid and no row is accessed that does not exist, exactly
when every file ends in the buffer and every click is at a line of it. -/
theorem throughout_valid_iff (d : Display) (events : List Event) :
    Throughout (step d) (fun _ => False) Valid start events ↔ Guarded (step d) (Inside d) start events :=
  throughout_iff_guarded (fun _ h => h.valid) (fun _ _ _ h ho => step_fits h ho)
    (fun _ _ _ h ho => inside_of_valid h ho) start_fits

theorem not_throughout_of_not_inside {d : Display} {o : Event} (ho : ¬Inside d start o) :
    ¬Throughout (step d) (fun _ => False) Valid start [o] := by
  intro h
  have hstep := h [o] [] rfl
  rw [run_cons, show (fun s => run (step d) s []) = fun s => (.ok s : Exec Desktop) from rfl, Exec.bind_ok] at hstep
  exact ho (inside_of_valid start_fits hstep)

/-- A screen with a font of 16 pixels, each character 8 pixels wide. -/
def sampleDisplay : Display := ⟨16, 18, fun l => 8 * l.length, by decide⟩

/-- A file of 512 line breaks is one line too long, and a click far below the last line reads
a row that does not exist. -/
theorem long_file_and_low_click_invalid :
    ¬Throughout (step sampleDisplay) (fun _ => False) Valid start
        [.openWindow ⟨80, 80, 550, 480⟩ (some (List.replicate 512 newline))] ∧
      ¬Throughout (step sampleDisplay) (fun _ => False) Valid start
        [.openWindow ⟨80, 80, 550, 480⟩ none, .mouse 0 100 12000 true false] := by
  constructor
  · refine not_throughout_of_not_inside fun hfits => ?_
    have hcount := hfits _ (Option.mem_some_self _)
    rw [List.count_replicate_self] at hcount
    exact absurd hcount (by decide)
  · intro h
    obtain ⟨s, hs, -⟩ := h.ok
    have hstops : ¬∃ s, run (step sampleDisplay) start
        [.openWindow ⟨80, 80, 550, 480⟩ none, .mouse 0 100 12000 true false] = .ok s ∧ True := by
      decide +kernel
    exact hstops ⟨s, hs, trivial⟩

end Desktop

end DualFuse.Gui
