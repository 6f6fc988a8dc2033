import DualFuse.Library.CString
import DualFuse.Utility.Words

/-! The text editor (`GUI/text_editor.cpp`). The lines of a document lie in a buffer of
512 rows of 256 bytes; reading or writing a row that the buffer does not have is a
fault. The editors of all windows share one clipboard. Drawing is left out, and what a
file delivers, the geometry of windows and the measures of the font are inputs. -/

namespace DualFuse.Gui

open Library Library.CString Utility

abbrev Byte := BitVec 8

def maxLines : ℕ := 512
def maxLineLength : ℕ := 256
def contextMenuWidth : ℤ := 120
def contextMenuItemHeight : ℤ := 18
def contextMenuItemCount : ℤ := 4
def lineVerticalPadding : ℕ := 3
def windowBorderWidth : ℤ := 4

def newline : Byte := 0x0a
def carriageReturn : Byte := 0x0d
def backspace : Byte := 0x08
def arrowUp : Byte := 0x01
def arrowDown : Byte := 0x02
def arrowLeft : Byte := 0x03
def arrowRight : Byte := 0x04

/-- The font and the screen. -/
structure Display where
  fontHeight : ℕ
  titleBarHeight : ℤ
  getTextWidth : List Byte → ℤ
  fontHeight_lt : fontHeight + lineVerticalPadding < 2 ^ 31

structure XPWindow where
  x : ℤ
  y : ℤ
  width : ℤ
  height : ℤ

structure XPTextEditor where
  lineBuffer : ℕ → List Byte
  totalLineCount : ℕ
  cursorLineIndex : ℕ
  cursorColumnIndex : ℕ
  verticalScrollOffset : ℤ
  clientAreaX : ℤ
  clientAreaY : ℤ
  clientAreaWidth : ℤ
  clientAreaHeight : ℤ
  hasUnsavedChanges : Bool
  allTextIsSelected : Bool
  contextMenuIsOpen : Bool
  contextMenuScreenX : ℤ
  contextMenuScreenY : ℤ
  contextMenuHoveredItemIndex : ℤ

/-- The shared clipboard, up to its terminator. -/
structure Clipboard where
  text : List Byte
  containsText : Bool

def blankLine : List Byte := List.replicate maxLineLength 0

namespace XPTextEditor

/-- `line_buffer[i]`. -/
def line (e : XPTextEditor) (i : ℕ) : Exec (List Byte) :=
  if i < maxLines then .ok (e.lineBuffer i) else .error .fault

def setLine (e : XPTextEditor) (i : ℕ) (row : List Byte) : Exec XPTextEditor :=
  if i < maxLines then .ok { e with lineBuffer := Function.update e.lineBuffer i row } else .error .fault

def linePixelHeight (d : Display) : ℕ := d.fontHeight + lineVerticalPadding

def visibleRowCount (d : Display) (e : XPTextEditor) : ℤ :=
  (wrapInt (e.clientAreaHeight - 8)).tdiv (linePixelHeight d)

def syncClientAreaFromWindow (d : Display) (e : XPTextEditor) (w : XPWindow) : XPTextEditor :=
  { e with
    clientAreaX := wrapInt (w.x + windowBorderWidth)
    clientAreaY := wrapInt (w.y + d.titleBarHeight + windowBorderWidth)
    clientAreaWidth := wrapInt (w.width - 2 * windowBorderWidth)
    clientAreaHeight := wrapInt (w.height - d.titleBarHeight - 2 * windowBorderWidth) }

def clampCursorColumnToLineEnd (e : XPTextEditor) : Exec XPTextEditor := do
  let row ← e.line e.cursorLineIndex
  let length ← strlen row
  .ok (if e.cursorColumnIndex > length then { e with cursorColumnIndex := length } else e)

-- a line is three pixels high at least, so none of these sums leaves the range of an `int`
def scrollToKeepCursorVisible (d : Display) (e : XPTextEditor) : XPTextEditor :=
  let offset := if e.cursorLineIndex < e.verticalScrollOffset then (e.cursorLineIndex : ℤ) else e.verticalScrollOffset
  let offset :=
    if e.cursorLineIndex ≥ offset + visibleRowCount d e then e.cursorLineIndex - visibleRowCount d e + 1 else offset
  { e with verticalScrollOffset := offset }

/-! ### Keys -/

/-- The loop that copies each row down by one, from row `i` to above row `stop`. -/
def shiftDown (stop : ℕ) (e : XPTextEditor) : ℕ → Exec XPTextEditor
  | 0 => .ok e
  | i + 1 =>
    if i + 1 > stop then do
      let row ← e.line i
      let e ← e.setLine (i + 1) row
      shiftDown stop e i
    else .ok e

/-- The loop that copies `n` rows up by one, into row `i` first. -/
def shiftUp (e : XPTextEditor) (i : ℕ) : ℕ → Exec XPTextEditor
  | 0 => .ok e
  | n + 1 => do
    let row ← e.line (i + 1)
    let e ← e.setLine i row
    shiftUp e (i + 1) n

/-- The string that starts at a column. -/
def stringAt (row : List Byte) (column : ℕ) : Exec (List Byte) :=
  if 0 ∈ row.drop column then .ok (content (row.drop column)) else .error .fault

/-- The Enter key, below the limit of lines. -/
def splitLine (e : XPTextEditor) : Exec XPTextEditor := do
  let current ← e.line e.cursorLineIndex
  let _ ← strlen current
  let e ← shiftDown (e.cursorLineIndex + 1) e e.totalLineCount
  let current ← e.line e.cursorLineIndex
  let tail ← stringAt current e.cursorColumnIndex
  let current ← setAt current e.cursorColumnIndex 0
  let e ← e.setLine e.cursorLineIndex current
  let next ← e.line (e.cursorLineIndex + 1)
  let next ← strncpy next 0 (tail.take (maxLineLength - 1)) (maxLineLength - 1)
  let e ← e.setLine (e.cursorLineIndex + 1) next
  .ok { e with
    totalLineCount := e.totalLineCount + 1
    cursorLineIndex := e.cursorLineIndex + 1
    cursorColumnIndex := 0
    hasUnsavedChanges := true }

def deleteInLine (e : XPTextEditor) : Exec XPTextEditor := do
  let current ← e.line e.cursorLineIndex
  let length ← strlen current
  let current ← memmove current (e.cursorColumnIndex - 1) e.cursorColumnIndex (length - e.cursorColumnIndex + 1)
  let e ← e.setLine e.cursorLineIndex current
  .ok { e with cursorColumnIndex := e.cursorColumnIndex - 1, hasUnsavedChanges := true }

/-- Two lines become one, unless that would be too long. -/
def joinLines (e : XPTextEditor) : Exec XPTextEditor := do
  let previous ← e.line (e.cursorLineIndex - 1)
  let current ← e.line e.cursorLineIndex
  let previousLength ← strlen previous
  let currentLength ← strlen current
  if previousLength + currentLength < maxLineLength - 1 then do
    let joined ← strncat previous (content current) (maxLineLength - previousLength - 1)
    let e ← e.setLine (e.cursorLineIndex - 1) joined
    let e ← shiftUp e e.cursorLineIndex (e.totalLineCount - 1 - e.cursorLineIndex)
    let e ← e.setLine (e.totalLineCount - 1) blankLine
    .ok { e with
      totalLineCount := e.totalLineCount - 1
      cursorLineIndex := e.cursorLineIndex - 1
      cursorColumnIndex := previousLength
      hasUnsavedChanges := true }
  else .ok e

def moveUp (e : XPTextEditor) : Exec XPTextEditor :=
  if e.cursorLineIndex > 0 then
    clampCursorColumnToLineEnd { e with cursorLineIndex := e.cursorLineIndex - 1 }
  else .ok e

def moveDown (e : XPTextEditor) : Exec XPTextEditor :=
  if e.cursorLineIndex < e.totalLineCount - 1 then
    clampCursorColumnToLineEnd { e with cursorLineIndex := e.cursorLineIndex + 1 }
  else .ok e

def moveLeft (e : XPTextEditor) : Exec XPTextEditor :=
  if e.cursorColumnIndex > 0 then .ok { e with cursorColumnIndex := e.cursorColumnIndex - 1 }
  else if e.cursorLineIndex > 0 then do
    let row ← e.line (e.cursorLineIndex - 1)
    let length ← strlen row
    .ok { e with cursorLineIndex := e.cursorLineIndex - 1, cursorColumnIndex := length }
  else .ok e

def moveRight (e : XPTextEditor) : Exec XPTextEditor := do
  let row ← e.line e.cursorLineIndex
  let length ← strlen row
  if e.cursorColumnIndex < length then .ok { e with cursorColumnIndex := e.cursorColumnIndex + 1 }
  else if e.cursorLineIndex < e.totalLineCount - 1 then
    .ok { e with cursorLineIndex := e.cursorLineIndex + 1, cursorColumnIndex := 0 }
  else .ok e

/-- A character is inserted into a line that is not full. -/
def insertCharacter (e : XPTextEditor) (c : Byte) : Exec XPTextEditor := do
  let current ← e.line e.cursorLineIndex
  let length ← strlen current
  let current ← memmove current (e.cursorColumnIndex + 1) e.cursorColumnIndex (length - e.cursorColumnIndex + 1)
  let current ← setAt current e.cursorColumnIndex c
  let e ← e.setLine e.cursorLineIndex current
  .ok { e with cursorColumnIndex := e.cursorColumnIndex + 1, hasUnsavedChanges := true }

/-- The length of the line that the cursor is in. -/
def currentLineLength (e : XPTextEditor) : Exec ℕ := do
  let row ← e.line e.cursorLineIndex
  strlen row

def deselect (e : XPTextEditor) (c : Byte) : XPTextEditor :=
  if e.allTextIsSelected ∧ c ∉ [arrowUp, arrowDown, arrowLeft, arrowRight] then { e with allTextIsSelected := false }
  else e

/-- What a key does, up to the scrolling; nothing where it is refused at once. -/
def applyKey (e : XPTextEditor) (c : Byte) : Exec (Option XPTextEditor) :=
  if c = newline then if e.totalLineCount ≥ maxLines then .ok none else some <$> e.splitLine
  else if c = backspace then
    if e.cursorColumnIndex > 0 then some <$> e.deleteInLine
    else if e.cursorLineIndex > 0 then some <$> e.joinLines
    else .ok (some e)
  else if c = arrowUp then some <$> e.moveUp
  else if c = arrowDown then some <$> e.moveDown
  else if c = arrowLeft then some <$> e.moveLeft
  else if c = arrowRight then some <$> e.moveRight
  else if c.toNat ≥ 0x20 then do
    let length ← e.currentLineLength
    if length ≥ maxLineLength - 1 then .ok none else some <$> e.insertCharacter c
  else .ok (some e)

def handleKeyInput (d : Display) (e : XPTextEditor) (c : Byte) : Exec XPTextEditor := do
  let e := e.deselect c
  match ← e.applyKey c with
  | some e => .ok (scrollToKeepCursorVisible d e)
  | none => .ok e

/-! ### The menu -/

def clipboardCapacity : ℕ := maxLines * maxLineLength - 1

/-- The loop of Copy All over `n` lines from line `i` on. -/
def copyLines (e : XPTextEditor) : ℕ → ℕ → List Byte → Exec (List Byte)
  | 0, _, written => .ok written
  | n + 1, i, written => do
    let row ← e.line i
    let length ← strlen row
    if clipboardCapacity ≤ written.length then .ok written
    else
      let written := written ++ row.take (min length (clipboardCapacity - written.length))
      let written :=
        if i < e.totalLineCount - 1 ∧ written.length < clipboardCapacity then written ++ [newline] else written
      copyLines e n (i + 1) written

def clear (e : XPTextEditor) : XPTextEditor :=
  { e with
    lineBuffer := fun _ => blankLine
    totalLineCount := 1
    cursorLineIndex := 0
    cursorColumnIndex := 0
    verticalScrollOffset := 0
    allTextIsSelected := false
    hasUnsavedChanges := true }

def executeContextMenuAction (d : Display) (e : XPTextEditor) (clipboard : Clipboard) (item : ℤ) :
    Exec (XPTextEditor × Clipboard) :=
  if item = 0 then .ok ({ e with allTextIsSelected := true }, clipboard)
  else if item = 1 then do
    let text ← e.copyLines e.totalLineCount 0 []
    .ok (e, ⟨text, decide (text.length > 0)⟩)
  else if item = 2 then
    if clipboard.containsText then do
      let e ← run (handleKeyInput d) e clipboard.text
      .ok (e, clipboard)
    else .ok (e, clipboard)
  else if item = 3 then .ok (e.clear, clipboard)
  else .ok (e, clipboard)

/-! ### The mouse -/

def clickRelativeX (e : XPTextEditor) (mouseX : ℤ) : ℤ := wrapInt (mouseX - wrapInt (e.clientAreaX + 4))

def clickRelativeY (e : XPTextEditor) (mouseY : ℤ) : ℤ := wrapInt (mouseY - wrapInt (e.clientAreaY + 4))

/-- The line under the mouse, whether the document has it or not. -/
def clickedLineIndex (d : Display) (e : XPTextEditor) (mouseY : ℤ) : ℤ :=
  (e.clickRelativeY mouseY).tdiv (linePixelHeight d) + e.verticalScrollOffset

/-- The first column up to which the text is as wide as the click is far right. -/
def clickedColumn (d : Display) (row : List Byte) (length : ℕ) (x : ℤ) : ℕ :=
  ((List.range (length + 1)).find? fun column => d.getTextWidth (row.take column) ≥ x).getD length

def placeCursor (d : Display) (e : XPTextEditor) (mouseX mouseY : ℤ) : Exec XPTextEditor :=
  if e.clickRelativeX mouseX < 0 ∨ e.clickRelativeY mouseY < 0 then .ok e
  else do
    let clicked := e.clickedLineIndex d mouseY
    let row ← if 0 ≤ clicked then e.line clicked.toNat else .error .fault
    let length ← strlen row
    let column := clickedColumn d row length (e.clickRelativeX mouseX)
    let index := if clicked ≥ e.totalLineCount then e.totalLineCount - 1 else clicked.toNat
    clampCursorColumnToLineEnd { e with cursorLineIndex := index, cursorColumnIndex := column }

/-- The item of the open menu under the mouse, or `-1`. -/
def hoveredItemIndex (e : XPTextEditor) (mouseX mouseY : ℤ) : ℤ :=
  let relativeY := wrapInt (mouseY - e.contextMenuScreenY)
  if mouseX ≥ e.contextMenuScreenX ∧ mouseX ≤ wrapInt (e.contextMenuScreenX + contextMenuWidth) ∧ relativeY ≥ 0 ∧
      relativeY < contextMenuItemHeight * contextMenuItemCount then
    relativeY.tdiv contextMenuItemHeight
  else -1

def openContextMenu (e : XPTextEditor) (mouseX mouseY : ℤ) : XPTextEditor :=
  let right := wrapInt (e.clientAreaX + e.clientAreaWidth)
  let bottom := wrapInt (e.clientAreaY + e.clientAreaHeight)
  let height := contextMenuItemHeight * contextMenuItemCount
  { e with
    contextMenuIsOpen := true
    contextMenuScreenX :=
      if wrapInt (mouseX + contextMenuWidth) > right then wrapInt (right - contextMenuWidth) else mouseX
    contextMenuScreenY := if wrapInt (mouseY + height) > bottom then wrapInt (bottom - height) else mouseY
    contextMenuHoveredItemIndex := -1 }

def handleMouse (d : Display) (e : XPTextEditor) (clipboard : Clipboard) (mouseX mouseY : ℤ)
    (leftClicked rightClicked : Bool) : Exec (XPTextEditor × Clipboard) :=
  if e.contextMenuIsOpen then
    let hovered := e.hoveredItemIndex mouseX mouseY
    let e := { e with contextMenuHoveredItemIndex := hovered }
    if leftClicked then
      let e := { e with contextMenuIsOpen := false }
      if hovered ≥ 0 then e.executeContextMenuAction d clipboard hovered else .ok (e, clipboard)
    else .ok (e, clipboard)
  else if rightClicked then .ok (e.openContextMenu mouseX mouseY, clipboard)
  else if leftClicked then do
    let e ← placeCursor d { e with allTextIsSelected := false, contextMenuIsOpen := false } mouseX mouseY
    .ok (e, clipboard)
  else .ok (e, clipboard)

/-! ### Opening a file -/

def create (d : Display) (w : XPWindow) : XPTextEditor :=
  syncClientAreaFromWindow d
    { lineBuffer := fun _ => blankLine
      totalLineCount := 1
      cursorLineIndex := 0
      cursorColumnIndex := 0
      verticalScrollOffset := 0
      clientAreaX := 0
      clientAreaY := 0
      clientAreaWidth := 0
      clientAreaHeight := 0
      hasUnsavedChanges := false
      allTextIsSelected := false
      contextMenuIsOpen := false
      contextMenuScreenX := 0
      contextMenuScreenY := 0
      contextMenuHoveredItemIndex := 0 } w

/-- A load in progress: the editor, and the line and column that the next byte goes to. -/
structure Loading where
  editor : XPTextEditor
  lineIndex : ℕ
  column : ℕ

/-- One byte of the file; the loop ends at the limit of lines. -/
def loadByte (l : Loading) (b : Byte) : Exec Loading :=
  if l.lineIndex < maxLines then
    if b = newline then .ok ⟨l.editor, l.lineIndex + 1, 0⟩
    else if b ≠ carriageReturn ∧ l.column < maxLineLength - 1 then do
      let row ← l.editor.line l.lineIndex
      let row ← setAt row l.column b
      let row ← setAt row (l.column + 1) 0
      let e ← l.editor.setLine l.lineIndex row
      .ok ⟨e, l.lineIndex, l.column + 1⟩
    else .ok l
  else .ok l

/-- `text_editor_open_window`; without a file where none is given or it cannot be opened. -/
def openWindow (d : Display) (w : XPWindow) (file : Option (List Byte)) : Exec XPTextEditor :=
  match file with
  | none => .ok (create d w)
  | some bytes => do
    let l ← run loadByte ⟨create d w, 0, 0⟩ bytes
    .ok { l.editor with totalLineCount := l.lineIndex + 1 }

end XPTextEditor

/-! ### The editors of all windows -/

structure Desktop where
  editors : List XPTextEditor
  clipboard : Clipboard

/-- What happens to the editors; an editor is named by its place. -/
inductive Event where
  | openWindow (w : XPWindow) (file : Option (List Byte))
  | onMove (i : ℕ) (w : XPWindow)
  | key (i : ℕ) (c : Byte)
  | menu (i : ℕ) (item : ℤ)
  | mouse (i : ℕ) (x y : ℤ) (leftClicked rightClicked : Bool)

namespace Desktop

def start : Desktop := ⟨[], ⟨[], false⟩⟩

/-- One editor and the clipboard change. -/
def update (s : Desktop) (i : ℕ) (f : XPTextEditor → Exec (XPTextEditor × Clipboard)) : Exec Desktop :=
  match s.editors[i]? with
  | none => .ok s
  | some e => do
    let (e, clipboard) ← f e
    .ok ⟨s.editors.set i e, clipboard⟩

def step (d : Display) (s : Desktop) : Event → Exec Desktop
  | .openWindow w file => do
    let e ← XPTextEditor.openWindow d w file
    .ok ⟨s.editors ++ [e], s.clipboard⟩
  | .onMove i w => s.update i fun e => .ok (e.syncClientAreaFromWindow d w, s.clipboard)
  | .key i c => s.update i fun e => do
    let e ← e.handleKeyInput d c
    .ok (e, s.clipboard)
  | .menu i item => s.update i fun e => e.executeContextMenuAction d s.clipboard item
  | .mouse i x y leftClicked rightClicked =>
    s.update i fun e => e.handleMouse d s.clipboard x y leftClicked rightClicked

end Desktop

end DualFuse.Gui
