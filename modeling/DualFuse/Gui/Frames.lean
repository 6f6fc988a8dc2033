import Mathlib.Tactic

/-! The frames of the desktop. The main loop (`frame_loop` of `GUI/fram_loop.cpp` with
`render_xp_desktop`) draws into a back buffer, and the timer interrupt (`drivers/timer.cpp`) copies
the buffer to the screen where `frame_ready` is set. An interrupt comes between any two steps of
the main loop, and it may draw too: the mouse and the touchpad run `GUI_input_loop`, which redraws
icons and clears new consoles. What a rendering draws is a list of pixels. -/

namespace DualFuse.Gui

/-- A pixel of the buffer and its colour. -/
abbrev PixelWrite := ℕ × BitVec 32

abbrev Picture := ℕ → BitVec 32

def Picture.put (p : Picture) (w : PixelWrite) : Picture := Function.update p w.1 w.2

/-- Where the main loop stands: before `get_frame_time`, before the comparison, before
`frame_ready = false`, or in front of what is still to be drawn. -/
inductive Place where
  | polling
  | comparing (currentFrameTime : BitVec 64)
  | rendering
  | drawing (rest : List PixelWrite)
  deriving DecidableEq, Repr

/-- What a copy brought to the screen: the rendering, the buffer that it began with, and what was
drawn since then, by the rendering itself (`true`) or by interrupts. -/
structure FrameCopy where
  rendering : ℕ
  base : Picture
  writes : List (Bool × PixelWrite)
  screen : Picture

/-- What a rendering itself has drawn. -/
def own (writes : List (Bool × PixelWrite)) : List PixelWrite := (writes.filter (·.1)).map (·.2)

/-- The picture after all that was drawn. -/
def Picture.putAll (p : Picture) (writes : List (Bool × PixelWrite)) : Picture :=
  (writes.map (·.2)).foldl Picture.put p

/-- The screen shows all that a rendering draws, with what interrupts drew meanwhile. -/
structure FrameCopy.Whole (frame : ℕ → List PixelWrite) (c : FrameCopy) : Prop where
  drawn : c.rendering ≠ 0 → own c.writes = frame c.rendering
  shown : c.screen = c.base.putAll c.writes

structure FrameState where
  timerTicks : BitVec 64
  frameReady : Bool
  guiFrame : BitVec 64
  copyHappened : Bool
  lastFrameTime : BitVec 64
  place : Place
  buffer : Picture
  screen : Picture

/-- The display with its history: the number of renderings that have begun, what the last of them
began with, what was drawn since, and the copies, the last one first. -/
structure Frames extends FrameState where
  renderings : ℕ
  base : Picture
  writes : List (Bool × PixelWrite)
  copies : List FrameCopy

namespace Frames

/-- After `initialize_xp_desktop`, which leaves `frame_ready` set. -/
def start (buffer screen : Picture) : Frames where
  timerTicks := 0
  frameReady := true
  guiFrame := 1
  copyHappened := false
  lastFrameTime := 0
  place := .polling
  buffer := buffer
  screen := screen
  renderings := 0
  base := buffer
  writes := []
  copies := []

/-- One step of `frame_loop(render_xp_desktop)`; the `n`-th rendering draws `frame n`. -/
def mainStep (frame : ℕ → List PixelWrite) (s : Frames) : Frames :=
  match s.place with
  | .polling => { s with place := .comparing s.guiFrame }
  | .comparing current =>
    if current ≠ s.lastFrameTime then { s with lastFrameTime := current, place := .rendering }
    else { s with place := .polling }
  | .rendering =>
    { s with
      frameReady := false
      place := .drawing (frame (s.renderings + 1))
      renderings := s.renderings + 1
      base := s.buffer
      writes := [] }
  | .drawing (w :: rest) =>
    { s with
      buffer := s.buffer.put w
      place := .drawing rest
      writes := s.writes ++ [(true, w)] }
  | .drawing [] => { s with frameReady := true, place := .polling }

/-- What `GUI_input_loop` draws. -/
def inputLoop (ws : List PixelWrite) (s : Frames) : Frames :=
  { s with
    buffer := ws.foldl Picture.put s.buffer
    writes := s.writes ++ ws.map (Prod.mk false) }

/-- `copy_buffer_to_screan` and what follows it. -/
def copyBufferToScrean (s : Frames) : Frames :=
  { s with
    frameReady := false
    screen := s.buffer
    guiFrame := s.guiFrame + 1
    copyHappened := true
    copies := ⟨s.renderings, s.base, s.writes, s.buffer⟩ :: s.copies }

/-- The touchpad is polled in front of the test of `frame_ready`. -/
def timerIrq0 (ws : List PixelWrite) (s : Frames) : Frames :=
  let s := inputLoop ws { s with timerTicks := s.timerTicks + 1 }
  if s.frameReady then s.copyBufferToScrean else s

inductive Event where
  | main
  | timer (ws : List PixelWrite)
  | mouse (ws : List PixelWrite)
  deriving DecidableEq, Repr

def step (frame : ℕ → List PixelWrite) (s : Frames) : Event → Frames
  | .main => s.mainStep frame
  | .timer ws => s.timerIrq0 ws
  | .mouse ws => s.inputLoop ws

def run (frame : ℕ → List PixelWrite) (s : Frames) (events : List Event) : Frames := events.foldl (step frame) s

@[simp] theorem run_append (frame : ℕ → List PixelWrite) (s : Frames) (p q : List Event) :
    s.run frame (p ++ q) = (s.run frame p).run frame q := List.foldl_append

/-- An invariant of the steps is one of the runs. -/
theorem run_keeps {frame : ℕ → List PixelWrite} {inv : Frames → Prop} (hstep : ∀ s e, inv s → inv (s.step frame e))
    {s : Frames} (hs : inv s) (events : List Event) : inv (s.run frame events) := by
  induction events generalizing s with
  | nil => exact hs
  | cons e events ih => exact ih (hstep s e hs)

/-! ### What is drawn -/

section Drawn

variable {writes : List (Bool × PixelWrite)} {w : PixelWrite} {ws : List PixelWrite} {p : Picture}

@[simp] theorem own_nil : own [] = [] := rfl

@[simp] theorem own_main : own (writes ++ [(true, w)]) = own writes ++ [w] := by simp [own]

@[simp] theorem own_interrupt : own (writes ++ ws.map (Prod.mk false)) = own writes := by
  simp [own]

@[simp] theorem putAll_nil : p.putAll [] = p := rfl

@[simp] theorem putAll_main : p.putAll (writes ++ [(true, w)]) = (p.putAll writes).put w := by
  simp [Picture.putAll]

@[simp] theorem putAll_interrupt :
    p.putAll (writes ++ ws.map (Prod.mk false)) = ws.foldl Picture.put (p.putAll writes) := by
  simp [Picture.putAll, Function.comp_def]

end Drawn

/-- A rendering draws at present. -/
def IsDrawing (s : Frames) : Prop := ∃ rest, s.place = .drawing rest

/-- The buffer is what was drawn. What is ready, and what was copied, is complete. -/
structure Sound (frame : ℕ → List PixelWrite) (screen : Picture) (s : Frames) : Prop where
  buffer : s.buffer = s.base.putAll s.writes
  drawing : ∀ rest, s.place = .drawing rest → s.frameReady = false ∧ own s.writes ++ rest = frame s.renderings
  drawn : ¬s.IsDrawing → s.renderings ≠ 0 → own s.writes = frame s.renderings
  whole : ∀ c ∈ s.copies, c.Whole frame
  fresh : s.frameReady = true ∨ s.IsDrawing → ∀ c ∈ s.copies, c.rendering < s.renderings
  old : ∀ c ∈ s.copies, c.rendering ≤ s.renderings
  order : s.copies.Pairwise fun c d => d.rendering < c.rendering
  latest : s.screen = (s.copies.head?.map FrameCopy.screen).getD screen

variable {frame : ℕ → List PixelWrite} {s : Frames} {rest : List PixelWrite} {screen : Picture}

theorem not_isDrawing (h : ∀ rest, s.place ≠ .drawing rest) : ¬s.IsDrawing := fun ⟨rest, hrest⟩ => h rest hrest

theorem sound_start (frame : ℕ → List PixelWrite) (buffer screen : Picture) :
    (start buffer screen).Sound frame screen := by
  refine ⟨rfl, ?_, ?_, ?_, ?_, ?_, List.Pairwise.nil, ?_⟩
  · intro rest h
    cases h
  · intro _ h
    exact absurd rfl h
  all_goals simp [start]

/-- The main loop stands elsewhere, but draws neither here nor there. -/
theorem Sound.idle (h : s.Sound frame screen) (hs : ∀ rest, s.place ≠ .drawing rest) {p : Place}
    (hp : ∀ rest, p ≠ .drawing rest) (t : BitVec 64) :
    Sound frame screen { s with place := p, lastFrameTime := t } := by
  have hnot := not_isDrawing hs
  refine ⟨h.buffer, fun rest hrest => absurd hrest (hp rest), fun _ => h.drawn hnot, h.whole, fun hready => ?_,
    h.old, h.order, h.latest⟩
  rcases hready with hready | ⟨rest, hrest⟩
  · exact h.fresh (.inl hready)
  · exact absurd hrest (hp rest)

/-- A rendering begins. -/
theorem Sound.begins (h : s.Sound frame screen) : Sound frame screen { s with
    frameReady := false
    place := .drawing (frame (s.renderings + 1))
    renderings := s.renderings + 1
    base := s.buffer
    writes := [] } := by
  refine ⟨rfl, fun rest hrest => ⟨rfl, ?_⟩, fun hnot => absurd ⟨_, rfl⟩ hnot, h.whole,
    fun _ c hc => Nat.lt_succ_of_le (h.old c hc), fun c hc => Nat.le_succ_of_le (h.old c hc), h.order, h.latest⟩
  rw [own_nil, List.nil_append, Place.drawing.inj hrest]

theorem Sound.draws {w : PixelWrite} (h : s.Sound frame screen) (hplace : s.place = .drawing (w :: rest)) :
    Sound frame screen { s with
      buffer := s.buffer.put w
      place := .drawing rest
      writes := s.writes ++ [(true, w)] } := by
  obtain ⟨hready, hown⟩ := h.drawing _ hplace
  refine ⟨by rw [putAll_main, h.buffer], fun r hr => ⟨hready, ?_⟩, fun hnot => absurd ⟨_, rfl⟩ hnot, h.whole,
    fun _ => h.fresh (.inr ⟨_, hplace⟩), h.old, h.order, h.latest⟩
  rw [own_main, ← Place.drawing.inj hr, ← hown, List.append_assoc, List.singleton_append]

/-- Nothing is left to draw, so the frame is ready. -/
theorem Sound.finishes (h : s.Sound frame screen) (hplace : s.place = .drawing []) :
    Sound frame screen { s with frameReady := true, place := .polling } := by
  obtain ⟨-, hown⟩ := h.drawing _ hplace
  rw [List.append_nil] at hown
  refine ⟨h.buffer, fun rest hrest => ?_, fun _ _ => hown, h.whole, fun _ => h.fresh (.inr ⟨_, hplace⟩),
    h.old, h.order, h.latest⟩
  cases hrest

theorem Sound.mainStep (h : s.Sound frame screen) : (s.mainStep frame).Sound frame screen := by
  rcases hplace : s.place with _ | current | _ | (_ | ⟨w, rest⟩)
  · simp only [Frames.mainStep, hplace]
    exact h.idle (by simp [hplace]) (by simp) _
  · simp only [Frames.mainStep, hplace]
    split_ifs
    · exact h.idle (by simp [hplace]) (by simp) _
    · exact h.idle (by simp [hplace]) (by simp) _
  · simp only [Frames.mainStep, hplace]
    exact h.begins
  · simp only [Frames.mainStep, hplace]
    exact h.finishes hplace
  · simp only [Frames.mainStep, hplace]
    exact h.draws hplace

theorem Sound.inputLoop (h : s.Sound frame screen) (ws : List PixelWrite) : (s.inputLoop ws).Sound frame screen where
  buffer := by rw [Frames.inputLoop, putAll_interrupt, h.buffer]
  drawing rest hrest := by
    rw [Frames.inputLoop, own_interrupt]
    exact h.drawing rest hrest
  drawn hnot := by
    rw [Frames.inputLoop, own_interrupt]
    exact h.drawn hnot
  whole := h.whole
  fresh := h.fresh
  old := h.old
  order := h.order
  latest := h.latest

theorem Sound.ticked (h : s.Sound frame screen) (t : BitVec 64) : Sound frame screen { s with timerTicks := t } :=
  ⟨h.buffer, h.drawing, h.drawn, h.whole, h.fresh, h.old, h.order, h.latest⟩

/-- What is ready is complete, so the copy shows it whole. -/
theorem Sound.copies (h : s.Sound frame screen) (hready : s.frameReady = true) :
    s.copyBufferToScrean.Sound frame screen := by
  have hs : ∀ rest, s.place ≠ .drawing rest := fun rest hrest => by
    rw [(h.drawing rest hrest).1] at hready
    cases hready
  have hnot := not_isDrawing hs
  refine ⟨h.buffer, fun rest hrest => absurd hrest (hs rest), fun _ => h.drawn hnot, ?_, ?_, ?_, ?_, ?_⟩
  · simp only [copyBufferToScrean, List.forall_mem_cons]
    exact ⟨⟨h.drawn hnot, h.buffer⟩, h.whole⟩
  · rintro (hfalse | hdraws)
    · cases hfalse
    · exact absurd hdraws hnot
  · simp only [copyBufferToScrean, List.forall_mem_cons]
    exact ⟨le_rfl, h.old⟩
  · exact List.pairwise_cons.mpr ⟨h.fresh (.inl hready), h.order⟩
  · simp [copyBufferToScrean]

theorem Sound.step (h : s.Sound frame screen) (e : Event) : (s.step frame e).Sound frame screen := by
  cases e with
  | main => exact h.mainStep
  | mouse ws => exact h.inputLoop ws
  | timer ws =>
    have hinput := (h.ticked (s.timerTicks + 1)).inputLoop ws
    simp only [Frames.step, timerIrq0]
    split_ifs with hready
    · exact hinput.copies hready
    · exact hinput

theorem sound_run (frame : ℕ → List PixelWrite) (buffer screen : Picture) (events : List Event) :
    ((start buffer screen).run frame events).Sound frame screen :=
  run_keeps (fun _ e h => h.step e) (sound_start frame buffer screen) events

/-- Every rendering so far was for a copy of its own: the time that the loop knows is that of the
last copy, or one copy was made since. -/
def Settled (s : Frames) : Prop :=
  match s.place with
  | .polling =>
    s.frameReady = true ∧ s.guiFrame = s.lastFrameTime ∨ s.frameReady = false ∧ s.guiFrame = s.lastFrameTime + 1
  | .comparing c =>
    s.frameReady = true ∧ s.guiFrame = s.lastFrameTime ∧ c = s.lastFrameTime ∨
      s.frameReady = false ∧ s.guiFrame = s.lastFrameTime + 1 ∧ (c = s.lastFrameTime ∨ c = s.lastFrameTime + 1)
  | .rendering | .drawing _ => s.frameReady = false ∧ s.guiFrame = s.lastFrameTime

/-- The rendering that the next copy shows. -/
def due (s : Frames) : ℕ :=
  match s.place, s.frameReady with
  | .drawing _, _ | _, true => s.renderings
  | _, false => s.renderings + 1

theorem renderings_le_due (s : Frames) : s.renderings ≤ s.due := by
  rw [due]
  split <;> omega

/-- What a step does to the copies: nothing, or it adds the one that is due. -/
def Copies (s s' : Frames) : Prop :=
  s'.copies = s.copies ∧ s'.due = s.due ∨ ∃ c, s'.copies = c :: s.copies ∧ c.rendering = s.due ∧ s'.due = s.due + 1

theorem Settled.mainStep (h : s.Settled) : (s.mainStep frame).Settled ∧ s.Copies (s.mainStep frame) := by
  rcases hplace : s.place with _ | c | _ | (_ | ⟨w, rest⟩) <;>
    simp only [Settled, hplace] at h <;> simp only [Frames.mainStep, hplace]
  · rcases h with ⟨hready, hgui⟩ | ⟨hready, hgui⟩
    · simp [Settled, Copies, due, hplace, hready, hgui]
    · simp [Settled, Copies, due, hplace, hready, hgui]
  · rcases h with ⟨hready, hgui, rfl⟩ | ⟨hready, hgui, rfl | rfl⟩
    · simp [Settled, Copies, due, hplace, hready, hgui]
    · simp [Settled, Copies, due, hplace, hready, hgui]
    · rw [if_pos (by simp)]
      simp [Settled, Copies, due, hplace, hready, hgui]
  · simp [Settled, Copies, due, hplace, h]
  · simp [Settled, Copies, due, hplace, h]
  · simp [Settled, Copies, due, hplace, h]

theorem Settled.inputLoop (h : s.Settled) (ws : List PixelWrite) :
    (s.inputLoop ws).Settled ∧ s.Copies (s.inputLoop ws) := ⟨h, .inl ⟨rfl, rfl⟩⟩

/-- The copy shows the rendering that is due. -/
theorem Settled.copies (h : s.Settled) (hready : s.frameReady = true) :
    s.copyBufferToScrean.Settled ∧ s.Copies s.copyBufferToScrean := by
  rcases hplace : s.place with _ | c | _ | rest <;> simp only [Settled, hplace] at h
  · simp_all [Settled, Copies, due, copyBufferToScrean]
  · simp_all [Settled, Copies, due, copyBufferToScrean]
  · simp_all
  · simp_all

theorem Settled.step (h : s.Settled) (e : Event) : (s.step frame e).Settled ∧ s.Copies (s.step frame e) := by
  cases e with
  | main => exact h.mainStep
  | mouse ws => exact h.inputLoop ws
  | timer ws =>
    simp only [Frames.step, timerIrq0]
    split_ifs with hready
    · exact Settled.copies (s := Frames.inputLoop ws { s with timerTicks := s.timerTicks + 1 }) h hready
    · exact ⟨h, .inl ⟨rfl, rfl⟩⟩

/-- From a settled state on, the copies show one rendering after the other. -/
theorem Settled.run (h : s.Settled) (events : List Event) :
    ∃ new, (s.run frame events).copies = new ++ s.copies ∧
      (new.map FrameCopy.rendering).reverse = List.range' s.due new.length ∧
      (s.run frame events).due = s.due + new.length := by
  induction events generalizing s with
  | nil => exact ⟨[], rfl, rfl, rfl⟩
  | cons e events ih =>
    obtain ⟨hsettled, hcopies⟩ := @Settled.step frame _ h e
    obtain ⟨new, hnew, hrange, hlast⟩ := ih hsettled
    rw [Frames.run, List.foldl_cons, ← Frames.run]
    rcases hcopies with ⟨hsame, hdue⟩ | ⟨c, hcons, hc, hdue⟩
    · exact ⟨new, by rw [hnew, hsame], by rw [hrange, hdue], by rw [hlast, hdue]⟩
    · refine ⟨new ++ [c], by rw [hnew, hcons, List.append_assoc, List.singleton_append], ?_, ?_⟩
      · rw [List.map_append, List.reverse_append, hrange, hdue, List.length_append]
        simp [hc, List.range'_succ]
      · rw [hlast, hdue, List.length_append, List.length_singleton]
        omega

/-- How far the loop can be behind: one copy, or two at the beginning. -/
def Lagging (s : Frames) : Prop :=
  match s.place with
  | .polling =>
    if s.frameReady then s.guiFrame = s.lastFrameTime ∨ s.guiFrame = s.lastFrameTime + 1
    else s.guiFrame = s.lastFrameTime + 1 ∨ s.guiFrame = s.lastFrameTime + 2
  | .comparing c =>
    if s.frameReady then s.guiFrame = c ∧ (s.guiFrame = s.lastFrameTime ∨ s.guiFrame = s.lastFrameTime + 1)
    else (s.guiFrame = c ∨ s.guiFrame = c + 1) ∧ (s.guiFrame = s.lastFrameTime + 1 ∨ s.guiFrame = s.lastFrameTime + 2)
  | .rendering =>
    if s.frameReady then s.guiFrame = s.lastFrameTime
    else s.guiFrame = s.lastFrameTime ∨ s.guiFrame = s.lastFrameTime + 1
  | .drawing _ => s.frameReady = false ∧ (s.guiFrame = s.lastFrameTime ∨ s.guiFrame = s.lastFrameTime + 1)

theorem Lagging.mainStep (h : s.Lagging) : (s.mainStep frame).Lagging := by
  rcases hplace : s.place with _ | c | _ | (_ | ⟨w, rest⟩) <;>
    simp only [Lagging, hplace] at h <;> simp only [Frames.mainStep, hplace]
  · cases hready : s.frameReady <;> simp_all [Lagging]
  · by_cases hc : c = s.lastFrameTime
    · cases hready : s.frameReady <;> simp_all [Lagging]
    · cases hready : s.frameReady <;> simp_all [Lagging]
  · cases hready : s.frameReady <;> simp_all [Lagging]
  · simp_all [Lagging]
  · simp_all [Lagging]

theorem add_one_add_one (t : BitVec 64) : t + 1#64 + 1#64 = t + 2#64 := by
  rw [BitVec.add_assoc]
  rfl

theorem Lagging.copies (h : s.Lagging) (hready : s.frameReady = true) : s.copyBufferToScrean.Lagging := by
  rcases hplace : s.place with _ | c | _ | rest <;> simp only [Lagging, hplace, hready, if_true] at h <;>
    simp only [Lagging, copyBufferToScrean, hplace]
  · rcases h with h | h
    · simp [h]
    · simp [h, add_one_add_one]
  · obtain ⟨rfl, h | h⟩ := h
    · simp [h]
    · simp [h, add_one_add_one]
  · simp [h]
  · cases h.1

theorem lagging_start (buffer screen : Picture) : (start buffer screen).Lagging := .inr rfl

theorem Lagging.step (h : s.Lagging) (e : Event) : (s.step frame e).Lagging := by
  cases e with
  | main => exact h.mainStep
  | mouse ws => exact h
  | timer ws =>
    simp only [Frames.step, timerIrq0]
    split_ifs with hready
    · exact Lagging.copies (s := Frames.inputLoop ws { s with timerTicks := s.timerTicks + 1 }) h hready
    · exact h

/-- When the loop has found nothing to do, it is settled. -/
theorem Lagging.settled (h : s.Lagging) (hplace : s.place = .comparing s.lastFrameTime) : s.Settled := by
  simp only [Lagging, hplace] at h
  simp only [Settled, hplace]
  cases hready : s.frameReady with
  | true => simp_all
  | false =>
    simp only [hready, Bool.false_eq_true, if_false] at h
    refine .inr ⟨rfl, ?_, .inl trivial⟩
    rcases h with ⟨h | h, h' | h'⟩
    · exact h'
    · rw [h] at h'
      exact absurd h'.symm (by simp)
    · exact h
    · exact h

/-- Once the loop has found the time unchanged, no frame is lost any more: every rendering is shown
before the next one begins, whatever the interrupts do. -/
theorem frames_none_lost (frame : ℕ → List PixelWrite) (buffer screen : Picture) (before events : List Event)
    (hidle : ((start buffer screen).run frame before).place =
      .comparing ((start buffer screen).run frame before).lastFrameTime) :
    ∃ new, ((start buffer screen).run frame (before ++ events)).copies =
        new ++ ((start buffer screen).run frame before).copies ∧
      (new.map FrameCopy.rendering).reverse =
        List.range' ((start buffer screen).run frame before).due new.length ∧
      ((start buffer screen).run frame (before ++ events)).renderings ≤
        ((start buffer screen).run frame before).due + new.length := by
  rw [run_append]
  have hlagging : ((start buffer screen).run frame before).Lagging :=
    run_keeps (fun _ e h => h.step e) (lagging_start buffer screen) before
  obtain ⟨new, hnew, hrange, hdue⟩ := @Settled.run frame _ (hlagging.settled hidle) events
  exact ⟨new, hnew, hrange, (renderings_le_due _).trans hdue.le⟩

/-- The loop after its first frame. -/
def firstAwaited : Frames := (start (fun _ => 0) (fun _ => 0)).run (fun n => [(n, 1)]) (List.replicate 6 .main)

theorem first_frame_awaited :
    firstAwaited.place = .comparing firstAwaited.lastFrameTime ∧
      ∃ new, ((start (fun _ => 0) (fun _ => 0)).run (fun n => [(n, 1)])
            (List.replicate 6 .main ++ [.timer [], .main, .timer []])).copies = new ++ firstAwaited.copies ∧
        (new.map FrameCopy.rendering).reverse = List.range' firstAwaited.due new.length ∧
        ((start (fun _ => 0) (fun _ => 0)).run (fun n => [(n, 1)])
            (List.replicate 6 .main ++ [.timer [], .main, .timer []])).renderings ≤ firstAwaited.due + new.length :=
  ⟨rfl, frames_none_lost _ _ _ _ _ rfl⟩

end Frames

end DualFuse.Gui
