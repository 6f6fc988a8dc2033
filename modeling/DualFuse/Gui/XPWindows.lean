import DualFuse.Library.Execution

/-! The windows of the desktop (`GUI/window.cpp`). A window is known by its address, and zero is
no window. The windows are kept in an array of 64 slots, one of them is pointed to by
`active_xp_window`, and every window says of itself whether it is active. Left out are the buttons,
the colours, the title, the callbacks and all drawing. An access to a window that is not allocated
is a fault. -/

namespace DualFuse.Gui.Desktop

open Library

def maxNumOfWindows : ℕ := 64

structure XPWindow where
  x : ℤ
  y : ℤ
  width : ℤ
  height : ℤ
  active : Bool
  minimized : Bool
  deriving DecidableEq, Repr

/-- The windows that are allocated, by address, and the two records of them. -/
@[ext] structure XPWindows where
  windows : ℕ → Option XPWindow
  windowArr : List ℕ
  activeXpWindow : ℕ

/-- The size of the screen, and the height of the taskbar. -/
structure Screen where
  width : ℤ
  height : ℤ
  taskbarHeight : ℤ

/-- The first slot that holds `a` gets `b`. -/
def replaceFirst (slots : List ℕ) (a b : ℕ) : List ℕ := slots.set (slots.idxOf a) b

namespace XPWindows

def start : XPWindows := ⟨fun _ => none, List.replicate maxNumOfWindows 0, 0⟩

def modify (s : XPWindows) (a : ℕ) (f : XPWindow → XPWindow) : Exec XPWindows :=
  match s.windows a with
  | none => .error .fault
  | some w => .ok { s with windows := Function.update s.windows a (some (f w)) }

/-- One slot of the loop in `set_active_xp_window`. -/
def deactivate (s : XPWindows) (a : ℕ) : Exec XPWindows :=
  if a = 0 then .ok s else s.modify a fun w => { w with active := false }

def setActiveXpWindow (s : XPWindows) (win : ℕ) : Exec XPWindows :=
  if win = 0 then .ok s
  else do
    let s ← run deactivate s s.windowArr
    let s := { s with activeXpWindow := win }
    s.modify win fun w => { w with active := true }

/-- `malloc` returns `window`. -/
def createXpWindow (s : XPWindows) (x y width height : ℤ) (window : ℕ) : Exec XPWindows :=
  if window = 0 then .ok s
  else
    setActiveXpWindow
      { s with
        windows := Function.update s.windows window (some ⟨x, y, width, height, false, false⟩)
        windowArr := replaceFirst s.windowArr 0 window } window

/-- The first window that is left becomes active. -/
def promote (s : XPWindows) : Exec XPWindows :=
  match s.windowArr.find? (· ≠ 0) with
  | some a => s.setActiveXpWindow a
  | none => .ok { s with activeXpWindow := 0 }

def closeXpWindow (s : XPWindows) (window : ℕ) : Exec XPWindows :=
  if window = 0 then .ok s
  else do
    let s := { s with windowArr := replaceFirst s.windowArr window 0 }
    match s.windows window with
    | none => .error .fault
    | some _ => promote { s with windows := Function.update s.windows window none }

def maximizeXpWindow (screen : Screen) (s : XPWindows) (window : ℕ) : Exec XPWindows :=
  if window = 0 then .ok s
  else
    s.modify window fun w =>
      { w with x := 0, y := 0, width := screen.width, height := screen.height - screen.taskbarHeight }

def minimizeXpWindow (s : XPWindows) (window : ℕ) : Exec XPWindows :=
  if window = 0 then .ok s else s.modify window fun w => { w with minimized := !w.minimized }

def moveXpWindow (s : XPWindows) (win : ℕ) (x y : ℤ) : Exec XPWindows :=
  s.modify win fun w => { w with x := x, y := y }

inductive Call where
  | createXpWindow (x y width height : ℤ) (window : ℕ)
  | closeXpWindow (window : ℕ)
  | setActiveXpWindow (win : ℕ)
  | maximizeXpWindow (window : ℕ)
  | minimizeXpWindow (window : ℕ)
  | moveXpWindow (win : ℕ) (x y : ℤ)
  deriving DecidableEq, Repr

def step (screen : Screen) (s : XPWindows) : Call → Exec XPWindows
  | .createXpWindow x y width height window => s.createXpWindow x y width height window
  | .closeXpWindow window => s.closeXpWindow window
  | .setActiveXpWindow win => s.setActiveXpWindow win
  | .maximizeXpWindow window => s.maximizeXpWindow screen window
  | .minimizeXpWindow window => s.minimizeXpWindow window
  | .moveXpWindow win x y => s.moveXpWindow win x y

/-- `malloc` returns zero or memory that no window has; the other calls name a window. -/
def Valid (s : XPWindows) : Call → Prop
  | .createXpWindow _ _ _ _ window => window = 0 ∨ s.windows window = none
  | .closeXpWindow window | .setActiveXpWindow window | .maximizeXpWindow window | .minimizeXpWindow window
  | .moveXpWindow window _ _ => s.windows window ≠ none

instance (s : XPWindows) : (c : Call) → Decidable (s.Valid c)
  | .createXpWindow _ _ _ _ window => inferInstanceAs (Decidable (window = 0 ∨ s.windows window = none))
  | .closeXpWindow window | .setActiveXpWindow window | .maximizeXpWindow window | .minimizeXpWindow window
  | .moveXpWindow window _ _ => inferInstanceAs (Decidable (s.windows window ≠ none))

/-- A window is created while a slot is free, or gets no memory. -/
def Fits (s : XPWindows) : Call → Prop
  | .createXpWindow _ _ _ _ window => window = 0 ∨ 0 ∈ s.windowArr
  | _ => True

/-- Every window has one slot, and the slots hold nothing else. -/
structure Slotted (s : XPWindows) : Prop where
  null : s.windows 0 = none
  once : ∀ a, s.windows a ≠ none → s.windowArr.count a = 1
  filled : ∀ a ∈ s.windowArr, a ≠ 0 → s.windows a ≠ none

/-- The three records of the windows agree. -/
structure Registered (s : XPWindows) : Prop extends s.Slotted where
  size : s.windowArr.length = maxNumOfWindows
  none_active : s.activeXpWindow = 0 ↔ ∀ a, s.windows a = none
  active_window : s.activeXpWindow ≠ 0 → s.windows s.activeXpWindow ≠ none
  only : ∀ a w, s.windows a = some w → (w.active = true ↔ a = s.activeXpWindow)

variable {s s' : XPWindows} {a : ℕ} {w : XPWindow}

theorem modify_eq (h : s.windows a = some w) (f : XPWindow → XPWindow) :
    s.modify a f = .ok { s with windows := Function.update s.windows a (some (f w)) } := by
  rw [modify, h]

/-- All windows changed at once. -/
def mapWindows (s : XPWindows) (f : ℕ → XPWindow → XPWindow) : XPWindows :=
  { s with windows := fun a => (s.windows a).map (f a) }

/-- The windows of `slots` are not active any more. -/
theorem run_deactivate {slots : List ℕ} (hlive : ∀ a ∈ slots, a ≠ 0 → s.windows a ≠ none)
    (hnull : s.windows 0 = none) :
    run deactivate s slots =
      .ok (s.mapWindows fun a w => if a ∈ slots then { w with active := false } else w) := by
  induction slots generalizing s with
  | nil => simp [mapWindows]
  | cons b slots ih =>
    rw [run_cons, deactivate]
    by_cases hb : b = 0
    · subst hb
      rw [if_pos rfl, Exec.ok_bind, ih (fun a ha => hlive a (List.mem_cons_of_mem _ ha)) hnull]
      refine congrArg _ (XPWindows.ext (funext fun a => ?_) rfl rfl)
      by_cases ha : a = 0
      · simp [mapWindows, ha, hnull]
      · simp [mapWindows, ha]
    · obtain ⟨w, hw⟩ := Option.ne_none_iff_exists'.mp (hlive b List.mem_cons_self hb)
      rw [if_neg hb, modify_eq hw, Exec.ok_bind, ih]
      · refine congrArg _ (XPWindows.ext (funext fun a => ?_) rfl rfl)
        by_cases ha : a = b
        · subst ha
          simp [mapWindows, hw]
        · simp [mapWindows, ha]
      · intro a ha hzero
        by_cases hab : a = b
        · simp [hab]
        · simpa [hab] using hlive a (List.mem_cons_of_mem _ ha) hzero
      · simpa [Ne.symm hb] using hnull

def setActive (s : XPWindows) (win : ℕ) : XPWindows :=
  { s.mapWindows fun a w =>
      if a = win then { w with active := true } else if a ∈ s.windowArr then { w with active := false } else w with
    activeXpWindow := win }

@[simp] theorem setActive_activeXpWindow {win : ℕ} : (s.setActive win).activeXpWindow = win := rfl

theorem setActive_eq_none {win : ℕ} : (s.setActive win).windows a = none ↔ s.windows a = none :=
  Option.map_eq_none_iff

/-- The window is active, and those in the slots are not. -/
theorem setActiveXpWindow_eq {win : ℕ} (hlive : ∀ a ∈ s.windowArr, a ≠ 0 → s.windows a ≠ none)
    (hnull : s.windows 0 = none) (hwin : s.windows win ≠ none) : s.setActiveXpWindow win = .ok (s.setActive win) := by
  obtain ⟨w, hw⟩ := Option.ne_none_iff_exists'.mp hwin
  have hzero : win ≠ 0 := by
    rintro rfl
    exact hwin hnull
  rw [setActiveXpWindow, if_neg hzero, run_deactivate hlive hnull, Exec.ok_bind, modify_eq (w :=
    if win ∈ s.windowArr then { w with active := false } else w) (by simp [mapWindows, hw])]
  refine congrArg _ (XPWindows.ext (funext fun a => ?_) rfl rfl)
  by_cases ha : a = win
  · subst ha
    simp only [setActive, mapWindows, Function.update_self, hw, Option.map_some, if_true]
    split_ifs
    · rfl
    · rfl
  · simp only [setActive, mapWindows, Function.update_of_ne ha, if_neg ha]

/-- Where every window has its slot, the records agree after a window was made active. -/
theorem Slotted.setActive {win : ℕ} (h : s.Slotted) (hsize : s.windowArr.length = maxNumOfWindows)
    (hwin : s.windows win ≠ none) : ∃ s', s.setActiveXpWindow win = .ok s' ∧ s'.Registered := by
  refine ⟨_, setActiveXpWindow_eq h.filled h.null hwin, ?_⟩
  have hzero : win ≠ 0 := by
    rintro rfl
    exact hwin h.null
  refine { null := ?_, once := ?_, filled := ?_, size := hsize, none_active := ?_, active_window := ?_, only := ?_ }
  · exact setActive_eq_none.mpr h.null
  · exact fun a ha => h.once a fun hnone => ha (setActive_eq_none.mpr hnone)
  · exact fun a ha hne hnone => h.filled a ha hne (setActive_eq_none.mp hnone)
  · refine iff_of_false hzero fun hall => hwin (setActive_eq_none.mp (hall win))
  · exact fun _ hnone => hwin (setActive_eq_none.mp hnone)
  · intro a w' hw'
    obtain ⟨w, hw, rfl⟩ := Option.map_eq_some_iff.mp hw'
    have hslot : a ∈ s.windowArr := by
      rw [← List.count_pos_iff, h.once a (by simp [hw])]
      exact Nat.one_pos
    by_cases ha : a = win
    · simp [ha]
    · simp [ha, hslot]

/-! ### The slots -/

section Slots
variable {slots : List ℕ} {b c : ℕ}

@[simp] theorem length_replaceFirst : (replaceFirst slots a b).length = slots.length := List.length_set

theorem replaceFirst_of_notMem (h : a ∉ slots) : replaceFirst slots a b = slots := by
  rw [replaceFirst, List.idxOf_eq_length h, List.set_eq_of_length_le le_rfl]

theorem count_replaceFirst (h : a ∈ slots) : (replaceFirst slots a b).count c =
    slots.count c - (if a = c then 1 else 0) + if b = c then 1 else 0 := by
  rw [replaceFirst, List.count_set (List.idxOf_lt_length_of_mem h), List.getElem_idxOf]
  simp only [beq_iff_eq]

/-- Another entry is in as many slots as before. -/
theorem count_replaceFirst_of_ne (ha : a ≠ c) (hb : b ≠ c) : (replaceFirst slots a b).count c = slots.count c := by
  by_cases h : a ∈ slots
  · rw [count_replaceFirst h, if_neg ha, if_neg hb, Nat.sub_zero, Nat.add_zero]
  · rw [replaceFirst_of_notMem h]

theorem mem_replaceFirst_of_ne (ha : a ≠ c) (hb : b ≠ c) : c ∈ replaceFirst slots a b ↔ c ∈ slots := by
  rw [← List.count_pos_iff, count_replaceFirst_of_ne ha hb, List.count_pos_iff]

end Slots

section Calls

variable {window : ℕ}

theorem Slotted.mem (h : s.Slotted) (ha : s.windows a ≠ none) : a ∈ s.windowArr := by
  rw [← List.count_pos_iff, h.once a ha]
  exact Nat.one_pos

theorem Slotted.ne_zero (h : s.Slotted) (ha : s.windows a ≠ none) : a ≠ 0 := by
  rintro rfl
  exact ha h.null

theorem Slotted.notMem (h : s.Slotted) (hzero : a ≠ 0) (ha : s.windows a = none) : a ∉ s.windowArr :=
  fun hmem => h.filled a hmem hzero ha

/-- The new window has the first free slot. -/
theorem Registered.create (h : s.Registered) (hzero : window ≠ 0) (hfresh : s.windows window = none)
    (hfree : 0 ∈ s.windowArr) (x y width height : ℤ) :
    ∃ s', s.createXpWindow x y width height window = .ok s' ∧ s'.Registered := by
  rw [createXpWindow, if_neg hzero]
  refine Slotted.setActive { null := ?_, once := fun a ha => ?_, filled := fun a ha hne => ?_ } ?_ ?_
  · exact (Function.update_of_ne hzero.symm _ _).trans h.null
  · by_cases heq : a = window
    · subst heq
      rw [count_replaceFirst hfree, if_neg hzero.symm, if_pos rfl,
        List.count_eq_zero.mpr (h.notMem hzero hfresh)]
    · have ha : s.windows a ≠ none := by simpa [heq] using ha
      rw [count_replaceFirst_of_ne (h.ne_zero ha).symm (Ne.symm heq)]
      exact h.once a ha
  · by_cases heq : a = window
    · simp [heq]
    · have ha := (mem_replaceFirst_of_ne hne.symm (Ne.symm heq)).mp ha
      simpa [heq] using h.filled a ha hne
  · rw [length_replaceFirst, h.size]
  · simp

/-- Without a free slot the new window has none. -/
theorem not_registered_of_full (h : s.Registered) (hzero : window ≠ 0) (hfresh : s.windows window = none)
    (hfull : 0 ∉ s.windowArr) {x y width height : ℤ} (hcall : s.createXpWindow x y width height window = .ok s') :
    ¬s'.Registered := by
  intro hs'
  have hnot := h.notMem hzero hfresh
  rw [createXpWindow, if_neg hzero, replaceFirst_of_notMem hfull, setActiveXpWindow_eq] at hcall
  · obtain rfl := Except.ok.inj hcall
    have honce := hs'.once window (fun hnone => by simpa using setActive_eq_none.mp hnone)
    rw [← List.count_eq_zero] at hnot
    exact absurd (hnot.symm.trans honce) Nat.zero_ne_one
  · intro a ha hne
    by_cases heq : a = window
    · simp [heq]
    · simpa [heq] using h.filled a ha hne
  · exact (Function.update_of_ne hzero.symm _ _).trans h.null
  · simp

/-- The slot of the window is free again, and one of the others is active. -/
theorem Registered.close (h : s.Registered) (hlive : s.windows window ≠ none) :
    ∃ s', s.closeXpWindow window = .ok s' ∧ s'.Registered := by
  have hzero := h.ne_zero hlive
  obtain ⟨w, hw⟩ := Option.ne_none_iff_exists'.mp hlive
  let s₁ : XPWindows := { s with
    windows := Function.update s.windows window none
    windowArr := replaceFirst s.windowArr window 0 }
  have hcall : s.closeXpWindow window = promote s₁ := by
    rw [closeXpWindow, if_neg hzero]
    simp only [hw]
    rfl
  have hne : ∀ a, s₁.windows a ≠ none → a ≠ window ∧ s.windows a ≠ none := by
    intro a ha
    by_cases heq : a = window
    · simp [s₁, heq] at ha
    · exact ⟨heq, by simpa [s₁, heq] using ha⟩
  have hslotted : s₁.Slotted := by
    refine { null := ?_, once := fun a ha => ?_, filled := fun a ha hazero => ?_ }
    · exact (Function.update_of_ne hzero.symm _ _).trans h.null
    · obtain ⟨heq, ha⟩ := hne a ha
      exact (count_replaceFirst_of_ne heq.symm (h.ne_zero ha).symm).trans (h.once a ha)
    · by_cases heq : a = window
      · subst heq
        have hcount : (replaceFirst s.windowArr a 0).count a = 0 := by
          rw [count_replaceFirst (h.mem hlive), if_pos rfl, if_neg hzero.symm, h.once a hlive]
        exact absurd ha (List.count_eq_zero.mp hcount)
      · have ha := (mem_replaceFirst_of_ne (Ne.symm heq) hazero.symm).mp ha
        simpa [s₁, heq] using h.filled a ha hazero
  have hsize : s₁.windowArr.length = maxNumOfWindows := length_replaceFirst.trans h.size
  rw [hcall, promote]
  cases hfind : s₁.windowArr.find? (· ≠ 0) with
  | some a =>
    have hazero : a ≠ 0 := by simpa using List.find?_some hfind
    exact hslotted.setActive hsize (hslotted.filled a (List.mem_of_find?_eq_some hfind) hazero)
  | none =>
    have hall : ∀ a, s₁.windows a = none := by
      intro a
      by_contra ha
      have := List.find?_eq_none.mp hfind a (hslotted.mem ha)
      exact hslotted.ne_zero ha (by simpa using this)
    exact ⟨_, rfl,
      { null := hslotted.null
        once := hslotted.once
        filled := hslotted.filled
        size := hsize
        none_active := iff_of_true rfl hall
        active_window := fun hne => absurd rfl hne
        only := fun a w hw => absurd ((hall a).symm.trans hw) (by simp) }⟩

/-- A change of a window that keeps its flag. -/
theorem Registered.modify (h : s.Registered) (hlive : s.windows window ≠ none) {f : XPWindow → XPWindow}
    (hf : ∀ w, (f w).active = w.active) : ∃ s', s.modify window f = .ok s' ∧ s'.Registered := by
  obtain ⟨w, hw⟩ := Option.ne_none_iff_exists'.mp hlive
  have hnone : ∀ a, Function.update s.windows window (some (f w)) a = none ↔ s.windows a = none := by
    intro a
    by_cases ha : a = window
    · simp [ha, hw]
    · simp [ha]
  refine ⟨_, modify_eq hw f,
    { null := (hnone 0).mpr h.null
      once := fun a ha => h.once a fun hn => ha ((hnone a).mpr hn)
      filled := fun a ha hne hn => h.filled a ha hne ((hnone a).mp hn)
      size := h.size
      none_active := h.none_active.trans (forall_congr' fun a => (hnone a).symm)
      active_window := fun hne hn => h.active_window hne ((hnone _).mp hn)
      only := fun a w' hw' => ?_ }⟩
  by_cases ha : a = window
  · subst ha
    have heq : Function.update s.windows a (some (f w)) a = some w' := hw'
    obtain rfl := Option.some.inj ((Function.update_self a (some (f w)) s.windows).symm.trans heq)
    rw [hf]
    exact h.only a w hw
  · exact h.only a w' ((Function.update_of_ne ha _ _).symm.trans hw')

end Calls

/-! ### Runs -/

theorem start_registered : start.Registered where
  null := rfl
  once a ha := absurd rfl ha
  filled a ha hne := absurd (List.eq_of_mem_replicate ha) hne
  size := List.length_replicate
  none_active := iff_of_true rfl fun _ => rfl
  active_window hne := absurd rfl hne
  only a w hw := by cases hw

theorem step_registered (screen : Screen) {c : Call} (h : s.Registered) (hvalid : s.Valid c) (hfits : s.Fits c) :
    ∃ s', s.step screen c = .ok s' ∧ s'.Registered := by
  cases c with
  | createXpWindow x y width height window =>
    by_cases hzero : window = 0
    · exact ⟨s, if_pos hzero, h⟩
    · exact h.create hzero (hvalid.resolve_left hzero) (hfits.resolve_left hzero) x y width height
  | closeXpWindow window => exact h.close hvalid
  | setActiveXpWindow win => exact h.toSlotted.setActive h.size hvalid
  | maximizeXpWindow window =>
    rw [step, maximizeXpWindow, if_neg (h.ne_zero hvalid)]
    exact h.modify hvalid fun _ => rfl
  | minimizeXpWindow window =>
    rw [step, minimizeXpWindow, if_neg (h.ne_zero hvalid)]
    exact h.modify hvalid fun _ => rfl
  | moveXpWindow win x y => exact h.modify hvalid fun _ => rfl

theorem fits_of_registered (screen : Screen) {c : Call} (h : s.Registered) (hvalid : s.Valid c)
    (hstep : Exec.Meets (fun _ => False) Registered (s.step screen c)) : s.Fits c := by
  cases c with
  | createXpWindow x y width height window =>
    by_contra hfits
    obtain ⟨hzero, hfull⟩ := not_or.mp hfits
    obtain ⟨s', hs', hregistered⟩ := Exec.meets_false_iff.mp hstep
    exact not_registered_of_full h hzero (hvalid.resolve_left hzero) hfull hs' hregistered
  | _ => trivial

/-- The new window is live, and so are the old ones. -/
theorem live_of_create (h : s.Registered) {window : ℕ} {x y width height : ℤ} (hzero : window ≠ 0)
    (hcall : s.createXpWindow x y width height window = .ok s') (ha : a = window ∨ s.windows a ≠ none) :
    s'.windows a ≠ none := by
  have hlive : ∀ b, b = window ∨ s.windows b ≠ none →
      Function.update s.windows window (some ⟨x, y, width, height, false, false⟩) b ≠ none := by
    intro b hb
    by_cases heq : b = window
    · simp [heq]
    · simpa [heq] using hb
  rw [createXpWindow, if_neg hzero, setActiveXpWindow_eq] at hcall
  · obtain rfl := Except.ok.inj hcall
    exact fun hnone => hlive a ha (setActive_eq_none.mp hnone)
  · intro b hb hne
    by_cases heq : b = window
    · exact hlive b (.inl heq)
    · exact hlive b (.inr (h.filled b ((mem_replaceFirst_of_ne hne.symm (Ne.symm heq)).mp hb) hne))
  · exact (Function.update_of_ne hzero.symm _ _).trans h.null
  · exact hlive window (.inl rfl)

/-- No more windows are created than there are slots. -/
theorem length_le_of_throughout (screen : Screen) {new : List ℕ} (hnodup : new.Nodup) (hnew : ∀ a ∈ new, a ≠ 0)
    {x y width height : ℤ} (h : Throughout (step screen) (fun _ => False) Registered start
      (new.map (Call.createXpWindow x y width height))) : new.length ≤ maxNumOfWindows := by
  have hrun : ∀ {new : List ℕ} {s : XPWindows}, s.Registered → (∀ a ∈ new, a ≠ 0) →
      Throughout (step screen) (fun _ => False) Registered s (new.map (Call.createXpWindow x y width height)) →
        ∃ s' : XPWindows, s'.Registered ∧ ∀ a, a ∈ new ∨ s.windows a ≠ none → s'.windows a ≠ none := by
    intro new
    induction new with
    | nil => exact fun {s} hs _ _ => ⟨s, hs, fun a ha => ha.resolve_left List.not_mem_nil⟩
    | cons window new ih =>
      intro s hs hnew h
      obtain ⟨hzero, hnew⟩ := List.forall_mem_cons.mp hnew
      obtain ⟨s₁, hs₁, hregistered⟩ := Exec.meets_false_iff.mp (h [Call.createXpWindow x y width height window] _ rfl)
      rw [run_cons, show (fun s => run (step screen) s []) = fun a => (.ok a : Exec XPWindows) from rfl,
        Exec.bind_ok] at hs₁
      obtain ⟨s', hs', hlive⟩ := ih hregistered hnew (h.tail hs₁)
      refine ⟨s', hs', fun a ha => hlive a ?_⟩
      rcases ha with ha | ha
      · rcases List.mem_cons.mp ha with heq | ha
        · exact .inr (live_of_create hs hzero hs₁ (.inl heq))
        · exact .inl ha
      · exact .inr (live_of_create hs hzero hs₁ (.inr ha))
  obtain ⟨s', hs', hlive⟩ := hrun start_registered hnew h
  rw [← hs'.size]
  exact (hnodup.subperm fun a ha => hs'.mem (hlive a (.inl ha))).length_le

/-- In every state of a run the array, the active pointer and the flags agree on the windows, exactly
when no window is created while all the slots are taken. -/
theorem registered_throughout_iff (screen : Screen) (calls : List Call)
    (hvalid : Guarded (step screen) Valid start calls) :
    Throughout (step screen) (fun _ => False) Registered start calls ↔ Guarded (step screen) Fits start calls :=
  throughout_iff_guarded_of_valid (fun _ h => h)
    (fun _ _ h hvalid hfits => Exec.meets_false_iff.mpr (step_registered screen h hvalid hfits))
    (fun _ _ h hvalid hmeets => fits_of_registered screen h hvalid hmeets) start_registered hvalid

/-- Two windows; the first one is closed, and the other one moves. -/
def twoWindowCalls : List Call :=
  [.createXpWindow 0 0 100 80 4096, .createXpWindow 10 10 100 80 8192, .closeXpWindow 4096, .moveXpWindow 8192 5 5]

theorem two_windows_registered :
    Throughout (step ⟨800, 600, 36⟩) (fun _ => False) Registered start twoWindowCalls ↔
      Guarded (step ⟨800, 600, 36⟩) Fits start twoWindowCalls :=
  registered_throughout_iff _ _ (by decide)

/-- One window more than there are slots. -/
theorem too_many_windows : ¬Throughout (step ⟨800, 600, 36⟩) (fun _ => False) Registered start
    (((List.range 65).map fun i => 4096 * (i + 1)).map (Call.createXpWindow 0 0 100 80)) := by
  intro h
  have hlength := length_le_of_throughout _ (List.nodup_range.map fun i j hij => by simpa using hij)
    (fun a ha => by
      obtain ⟨i, -, rfl⟩ := List.mem_map.mp ha
      omega) h
  rw [List.length_map, List.length_range] at hlength
  exact absurd hlength (by decide)

end XPWindows

end DualFuse.Gui.Desktop
