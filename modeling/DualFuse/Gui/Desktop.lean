import DualFuse.Drivers.Mouse
import DualFuse.Gui.XPWindows

/-! The desktop and its input (`GUI/button.cpp`, `GUI/GUI.cpp`, `GUI/GUI_input.cpp`, with the buttons of
`GUI/window.cpp`). Windows and buttons are objects with addresses. An address that was freed is never given out
again, and an access to what is not allocated is a fault. What the contents of a window do is left out but for the
windows that they open; so are all drawing, titles, colours, hovering and the panels. `malloc` does not fail. -/

namespace DualFuse.Gui.Desktop

open Library Drivers.Ps2

def maxNumOfButtons : ℕ := 32

/-- What a button is for. -/
inductive ButtonFunction where
  | closeXpWindow
  | maximizeXpWindow
  | minimizeXpWindow
  | onStartClick
  | onTaskbarWindowClick
  deriving DecidableEq, Repr

structure XPButton where
  x : ℤ
  y : ℤ
  width : ℤ
  height : ℤ
  pressed : Bool
  function : ButtonFunction
  window : ℕ
  deriving DecidableEq, Repr

/-- What the icons and the items of the start menu open. -/
inductive App where
  | console
  | fileExplorer
  | calculator
  deriving DecidableEq, Repr

structure XPDesktopIcon where
  x : ℤ
  y : ℤ
  size : ℤ
  pressed : Bool
  onClick : App
  deriving DecidableEq, Repr

/-- The place and the size of a window that is to be opened. -/
structure Opening where
  x : ℤ
  y : ℤ
  width : ℤ
  height : ℤ
  deriving DecidableEq, Repr

/-- The screen, and the height of the header of the start menu, which a font or a picture decides. -/
structure Layout extends Screen where
  headerHeight : ℤ

namespace Layout

def taskbarY (l : Layout) : ℤ := l.height - l.taskbarHeight
def titleBarHeight (l : Layout) : ℤ := 3 * (l.height / 100)
def startMenuX (_ : Layout) : ℤ := 2
def startMenuRenderY (l : Layout) : ℤ := l.taskbarY - 3 * 36 - 8 * 3 - l.taskbarHeight
def startMenuRenderHeight (l : Layout) : ℤ := 3 * 36 + 8 * 3 + l.taskbarHeight
def startMenuWidth (l : Layout) : ℤ := 15 * (l.width / 100)

/-- The window of an icon: `on_console_icon_click` and its like. -/
def opening (l : Layout) : App → Opening
  | .console => ⟨100, 100, 50 * (l.width / 100), 70 * (l.height / 100)⟩
  | .fileExplorer => ⟨120, 100, 46 * (l.width / 100), 56 * (l.height / 100)⟩
  | .calculator => ⟨200, 150, 222 + 2 * 4, 282 + l.titleBarHeight + 2 * 4⟩

end Layout

/-- The windows with the buttons. `windowButtons` are the buttons of a window, and nothing is allocated from `next`
on. -/
structure XPObjects extends XPWindows where
  buttons : ℕ → Option XPButton
  windowButtons : ℕ → List ℕ
  buttonArr : List ℕ
  startButton : ℕ
  taskbarButtons : List ℕ
  next : ℕ

/-- The desktop between two packets of the mouse. -/
structure XPDesktop extends XPObjects where
  icons : List XPDesktopIcon
  startMenuOpen : Bool
  oldClickedLeft : Bool
  oldClickedRight : Bool
  xOffsetToWindow : ℤ
  yOffsetToWindow : ℤ
  grabbedWindow : ℕ
  pressedButton : ℕ
  pressedIcon : Option ℕ

/-- `x >= left && x <= left + width && y >= top && y <= top + height`. -/
def Hits (left top width height x y : ℤ) : Prop :=
  (left ≤ x ∧ x ≤ left + width) ∧ top ≤ y ∧ y ≤ top + height

instance (left top width height x y : ℤ) : Decidable (Hits left top width height x y) :=
  inferInstanceAs (Decidable (_ ∧ _))

def XPWindow.Hit (w : XPWindow) (x y : ℤ) : Prop := Hits w.x w.y w.width w.height x y
def XPButton.Hit (b : XPButton) (x y : ℤ) : Prop := Hits b.x b.y b.width b.height x y
def XPDesktopIcon.Hit (i : XPDesktopIcon) (x y : ℤ) : Prop := Hits i.x i.y i.size i.size x y

instance (w : XPWindow) (x y : ℤ) : Decidable (w.Hit x y) := inferInstanceAs (Decidable (Hits ..))
instance (b : XPButton) (x y : ℤ) : Decidable (b.Hit x y) := inferInstanceAs (Decidable (Hits ..))
instance (i : XPDesktopIcon) (x y : ℤ) : Decidable (i.Hit x y) := inferInstanceAs (Decidable (Hits ..))

namespace XPObjects

/-! ### Objects -/

def window (s : XPObjects) (a : ℕ) : Exec XPWindow :=
  match s.windows a with
  | none => .error .fault
  | some w => .ok w

def button (s : XPObjects) (a : ℕ) : Exec XPButton :=
  match s.buttons a with
  | none => .error .fault
  | some b => .ok b

def modifyButton (s : XPObjects) (a : ℕ) (f : XPButton → XPButton) : Exec XPObjects := do
  let b ← s.button a
  .ok { s with buttons := Function.update s.buttons a (some (f b)) }

/-- `free(button)` where it is not null. -/
def freeButton (s : XPObjects) (a : ℕ) : Exec XPObjects :=
  if a = 0 then .ok s
  else do
    let _ ← s.button a
    .ok { s with buttons := Function.update s.buttons a none }

/-- A call that changes the windows only. -/
def onWindows (s : XPObjects) (call : XPWindows → Exec XPWindows) : Exec XPObjects := do
  let w ← call s.toXPWindows
  .ok { s with toXPWindows := w }

/-! ### Buttons -/

def createXpButton (s : XPObjects) (win : ℕ) (x y width height : ℤ) (func : ButtonFunction) :
    Exec (XPObjects × ℕ) := do
  let (x, y) ← if win = 0 then .ok (x, y) else (fun w => (w.x + x, w.y + y)) <$> s.window win
  .ok ({ s with
    buttons := Function.update s.buttons s.next (some ⟨x, y, width, height, false, func, win⟩)
    next := s.next + 1 }, s.next)

def registerXpButton (s : XPObjects) (btn : ℕ) : XPObjects := { s with buttonArr := replaceFirst s.buttonArr 0 btn }

/-- The first loop of `taskbar_sync_windows`, for one button. -/
def tearDown (s : XPObjects) (a : ℕ) : Exec XPObjects :=
  if a = 0 then .ok s else { s with buttonArr := replaceFirst s.buttonArr a 0 }.freeButton a

/-- The second loop of `taskbar_sync_windows`, for one slot; `btnX` is where the next button goes. -/
def addTaskbarButton (l : Layout) (r : XPObjects × ℤ) (a : ℕ) : Exec (XPObjects × ℤ) :=
  let (s, btnX) := r
  if a = 0 then .ok ({ s with taskbarButtons := s.taskbarButtons ++ [0] }, btnX)
  else do
    let _ ← s.window a
    let btnWidth := 13 * (l.width / 100)
    let (s, btn) ← s.createXpButton 0 btnX (l.taskbarY + 4) btnWidth (l.taskbarHeight - 8) .onTaskbarWindowClick
    let s ← s.modifyButton btn fun b => { b with window := a }
    .ok ({ s with taskbarButtons := s.taskbarButtons ++ [btn] }.registerXpButton btn, btnX + (btnWidth + 5))

def taskbarSyncWindows (l : Layout) (s : XPObjects) : Exec XPObjects := do
  let s ← run tearDown s s.taskbarButtons
  let start ← s.button s.startButton
  let (s, _) ← run (addTaskbarButton l) ({ s with taskbarButtons := [] }, start.x + start.width + 10) s.windowArr
  .ok s

/-! ### Windows -/

def createXpWindow (l : Layout) (s : XPObjects) (o : Opening) : Exec (XPObjects × ℕ) := do
  let window := s.next
  let s := { s with
    windows := Function.update s.windows window (some ⟨o.x, o.y, o.width, o.height, false, false⟩)
    next := s.next + 1 }
  let (s, close) ← s.createXpButton window (o.width - (16 + 4) * 1) 4 16 16 .closeXpWindow
  let (s, maximize) ← s.createXpButton window (o.width - (16 + 4) * 2) 4 16 16 .maximizeXpWindow
  let (s, minimize) ← s.createXpButton window (o.width - (16 + 4) * 3) 4 16 16 .minimizeXpWindow
  let s := { s with
    windowButtons := Function.update s.windowButtons window [close, maximize, minimize, 0]
    windowArr := replaceFirst s.windowArr 0 window }
  let s ← s.onWindows (·.setActiveXpWindow window)
  let s ← s.taskbarSyncWindows l
  .ok (s, window)

def closeXpWindow (l : Layout) (s : XPObjects) (window : ℕ) : Exec XPObjects :=
  if window = 0 then .ok s
  else do
    let s := { s with windowArr := replaceFirst s.windowArr window 0 }
    let _ ← s.window window
    let s ← run freeButton s (s.windowButtons window)
    let s := { s with windows := Function.update s.windows window none }
    let s ← s.taskbarSyncWindows l
    s.onWindows (·.promote)

/-- The title-bar buttons go where the window is: `win->x + win->width - (btn_size + 4) * (i + 1)`. -/
def placeButton (w : XPWindow) (s : XPObjects) (r : ℕ × ℕ) : Exec XPObjects :=
  if r.1 = 0 then .ok s
  else s.modifyButton r.1 fun b => { b with x := w.x + w.width - (16 + 4) * (r.2 + 1), y := w.y + 4 }

def placeButtons (s : XPObjects) (window : ℕ) : Exec XPObjects := do
  run (placeButton (← s.window window)) s ((s.windowButtons window).take 3).zipIdx

def maximizeXpWindow (l : Layout) (s : XPObjects) (window : ℕ) : Exec XPObjects :=
  if window = 0 then .ok s
  else do (← s.onWindows (·.maximizeXpWindow l.toScreen window)).placeButtons window

def moveXpWindow (s : XPObjects) (win : ℕ) (x y : ℤ) : Exec XPObjects := do
  (← s.onWindows (·.moveXpWindow win x y)).placeButtons win

def onTaskbarWindowClick (s : XPObjects) (win : ℕ) : Exec XPObjects :=
  if win = 0 then .ok s
  else do
    let s ← s.onWindows (·.setActiveXpWindow win)
    let w ← s.window win
    if w.minimized then s.onWindows (·.modify win fun w => { w with minimized := false }) else .ok s

/-- What opens a window makes it active once more, with its contents. -/
def openWindow (l : Layout) (s : XPObjects) (o : Opening) : Exec XPObjects := do
  let (s, window) ← s.createXpWindow l o
  s.onWindows (·.setActiveXpWindow window)

/-! ### What is under the mouse -/

/-- The loop of `get_window_at` from a slot on. -/
def windowAt (s : XPObjects) (x y : ℤ) (result : ℕ) : List ℕ → Exec ℕ
  | [] => .ok result
  | a :: slots =>
    if a = 0 then s.windowAt x y result slots
    else do
      let w ← s.window a
      if w.Hit x y then if w.active then .ok a else s.windowAt x y a slots
      else s.windowAt x y result slots

def getWindowAt (s : XPObjects) (x y : ℤ) : Exec ℕ := s.windowAt x y 0 s.windowArr

/-- The first of these buttons that is hit: the loops of `get_button_at` and `is_mouse_on_window_button`. -/
def buttonAt (s : XPObjects) (x y : ℤ) : List ℕ → Exec ℕ
  | [] => .ok 0
  | a :: buttons =>
    if a = 0 then s.buttonAt x y buttons
    else do
      let b ← s.button a
      if b.Hit x y then .ok a else s.buttonAt x y buttons

def getButtonAt (s : XPObjects) (x y : ℤ) : Exec ℕ := s.buttonAt x y s.buttonArr

def isMouseOnWindowButton (s : XPObjects) (win : ℕ) (x y : ℤ) : Exec ℕ := do
  let _ ← s.window win
  s.buttonAt x y (s.windowButtons win)

def isMouseOnWindowTitleBar (l : Layout) (w : XPWindow) (x y : ℤ) : Bool :=
  Hits w.x w.y w.width l.titleBarHeight x y

end XPObjects

namespace XPDesktop

/-- A call that changes the windows and the buttons only. -/
def onObjects (s : XPDesktop) (call : XPObjects → Exec XPObjects) : Exec XPDesktop := do
  let o ← call s.toXPObjects
  .ok { s with toXPObjects := o }

/-- `function(window)` of a button. -/
def fire (l : Layout) (s : XPDesktop) (func : ButtonFunction) (window : ℕ) : Exec XPDesktop :=
  match func with
  | .closeXpWindow => s.onObjects (·.closeXpWindow l window)
  | .maximizeXpWindow => s.onObjects (·.maximizeXpWindow l window)
  | .minimizeXpWindow => s.onObjects (·.onWindows (·.minimizeXpWindow window))
  | .onStartClick => .ok { s with startMenuOpen := !s.startMenuOpen }
  | .onTaskbarWindowClick => s.onObjects (·.onTaskbarWindowClick window)

def getDesktopIconAt (s : XPDesktop) (x y : ℤ) : Option ℕ := s.icons.findIdx? fun i => i.Hit x y

/-! ### The start menu -/

def startItems : List App := [.console, .fileExplorer, .calculator]

/-- An item of the start menu is under the mouse. -/
def onItem (l : Layout) (x y : ℤ) (k : ℕ) : Bool :=
  Hits l.startMenuX (l.startMenuRenderY + l.headerHeight + 8 + k * 36) l.startMenuWidth 36 x y

/-- The menu with what it does, and whether it takes the event. -/
def startMenuHandleMouse (l : Layout) (s : XPDesktop) (x y : ℤ) (clicked : Bool) : Exec (XPDesktop × Bool) :=
  if s.startMenuOpen = false then .ok (s, false)
  else
    let inside := Hits l.startMenuX l.startMenuRenderY l.startMenuWidth l.startMenuRenderHeight x y
    if clicked ∧ ¬inside then .ok ({ s with startMenuOpen := false }, false)
    else
      match if clicked then startItems.zipIdx.find? (onItem l x y ·.2) else none with
      | some (app, _) => do
        .ok (← onObjects { s with startMenuOpen := false } (·.openWindow l (l.opening app)), true)
      | none => .ok (s, inside)

/-! ### The input -/

/-- `dispatch_to_active_window` for the left button: the windows that the contents open. -/
def dispatchToActiveWindow (l : Layout) (s : XPDesktop) (content : List Opening) : Exec XPDesktop :=
  if s.activeXpWindow = 0 then .ok s
  else do
    let _ ← s.window s.activeXpWindow
    s.onObjects fun o => run (XPObjects.openWindow l) o content

def pressButton (s : XPDesktop) (btn : ℕ) : Exec XPDesktop :=
  onObjects { s with pressedButton := btn } (·.modifyButton btn fun b => { b with pressed := true })

/-- The left button goes down on a window. -/
def mouseDownOnWindow (l : Layout) (s : XPDesktop) (win : ℕ) (x y : ℤ) (content : List Opening) :
    Exec XPDesktop := do
  let s ← s.onObjects (·.onWindows (·.setActiveXpWindow win))
  let btn ← s.isMouseOnWindowButton win x y
  let w ← s.window win
  if btn ≠ 0 then s.pressButton btn
  else if XPObjects.isMouseOnWindowTitleBar l w x y then
    .ok { s with grabbedWindow := win, xOffsetToWindow := x - w.x, yOffsetToWindow := y - w.y }
  else s.dispatchToActiveWindow l content

/-- The left button goes down beside the windows. -/
def mouseDownOnDesktop (s : XPDesktop) (x y : ℤ) : Exec XPDesktop := do
  let btn ← s.getButtonAt x y
  if btn ≠ 0 then s.pressButton btn
  else
    match s.getDesktopIconAt x y with
    | none => .ok s
    | some i => .ok { s with pressedIcon := some i, icons := s.icons.modify i fun icon => { icon with pressed := true } }

def mouseDownLeft (l : Layout) (s : XPDesktop) (x y : ℤ) (content : List Opening) : Exec XPDesktop := do
  let win ← s.getWindowAt x y
  if win ≠ 0 then
    let w ← s.window win
    if w.minimized then s.mouseDownOnDesktop x y else s.mouseDownOnWindow l win x y content
  else s.mouseDownOnDesktop x y

/-- The contents of a window open nothing for the right button. -/
def mouseDownRight (s : XPDesktop) (x y : ℤ) : Exec XPDesktop := do
  let win ← s.getWindowAt x y
  if win ≠ 0 then
    let w ← s.window win
    if w.minimized then .ok s else s.onObjects (·.onWindows (·.setActiveXpWindow win))
  else .ok s

def releaseButton (l : Layout) (s : XPDesktop) : Exec XPDesktop :=
  if s.pressedButton = 0 then .ok s
  else do
    let b ← s.button s.pressedButton
    let s ← s.onObjects (·.modifyButton s.pressedButton fun b => { b with pressed := false })
    let s ← s.fire l b.function b.window
    .ok { s with pressedButton := 0 }

def releaseIcon (l : Layout) (s : XPDesktop) (x y : ℤ) : Exec XPDesktop :=
  match s.pressedIcon with
  | none => .ok s
  | some i =>
    match s.icons[i]? with
    | none => .error .fault
    | some icon =>
      let s := { s with
        icons := s.icons.modify i fun icon => { icon with pressed := false }
        pressedIcon := none }
      if icon.Hit x y then s.onObjects (·.openWindow l (l.opening icon.onClick)) else .ok s

def mouseUpLeft (l : Layout) (s : XPDesktop) (x y : ℤ) : Exec XPDesktop := do
  let s ← releaseButton l { s with grabbedWindow := 0 }
  s.releaseIcon l x y

def dragWindow (s : XPDesktop) (p : Pointer) : Exec XPDesktop :=
  if p.left ∧ s.grabbedWindow ≠ 0 then
    s.onObjects (·.moveXpWindow s.grabbedWindow (p.x - s.xOffsetToWindow) (p.y - s.yOffsetToWindow))
  else .ok s

/-- `GUI_input_loop` where the start menu does not take the event. -/
def handleMouse (l : Layout) (s : XPDesktop) (p : Pointer) (content : List Opening) : Exec XPDesktop := do
  let s ← if p.left ∧ s.oldClickedLeft = false then s.mouseDownLeft l p.x p.y content else .ok s
  let s ← if p.right ∧ s.oldClickedRight = false then s.mouseDownRight p.x p.y else .ok s
  let s ← if p.left = false ∧ s.oldClickedLeft then s.mouseUpLeft l p.x p.y else .ok s
  s.dragWindow p

def mouseUpdate (s : XPDesktop) (p : Pointer) : XPDesktop :=
  { s with oldClickedLeft := p.left, oldClickedRight := p.right }

def guiInputLoop (l : Layout) (s : XPDesktop) (p : Pointer) (content : List Opening) : Exec XPDesktop := do
  let (s, taken) ← s.startMenuHandleMouse l p.x p.y (p.left && !s.oldClickedLeft)
  let s ← if taken then .ok s else s.handleMouse l p content
  .ok (s.mouseUpdate p)

/-- A packet of the mouse, or windows that a command opens which was typed in a console. -/
inductive Event where
  | mouse (p : Pointer) (content : List Opening)
  | typed (content : List Opening)
  deriving DecidableEq, Repr

def step (l : Layout) (s : XPDesktop) : Event → Exec XPDesktop
  | .mouse p content => s.guiInputLoop l p content
  | .typed content => s.onObjects fun o => run (XPObjects.openWindow l) o content

/-- After `initialize_xp_desktop`: the start button has the first slot. -/
def start (l : Layout) (icons : List XPDesktopIcon) : XPDesktop where
  toXPWindows := XPWindows.start
  buttons := Function.update (fun _ => none) 1
    (some ⟨2, l.taskbarY + 3, 7 * (l.width / 100), l.taskbarHeight - 6, false, .onStartClick, 0⟩)
  windowButtons := fun _ => []
  buttonArr := 1 :: List.replicate (maxNumOfButtons - 1) 0
  startButton := 1
  taskbarButtons := List.replicate maxNumOfWindows 0
  icons := icons
  startMenuOpen := false
  oldClickedLeft := false
  oldClickedRight := false
  xOffsetToWindow := 0
  yOffsetToWindow := 0
  grabbedWindow := 0
  pressedButton := 0
  pressedIcon := none
  next := 2

end XPDesktop

end DualFuse.Gui.Desktop
