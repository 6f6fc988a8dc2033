import DualFuse.Drivers.Touchpad

/-! The PS/2 mouse (`drivers/mouse.cpp`). Each interrupt delivers one byte; three bytes are a packet,
and a packet moves the pointer, sets the buttons and runs `GUI_input_loop`. A first byte without its
bit 3 is dropped, so that the driver finds the packets again. Left out are the set-up of the device
and the event queries. -/

namespace DualFuse.Drivers.Ps2

open Hid

abbrev Byte := BitVec 8

/-- What `GUI_input_loop` sees. -/
@[ext] structure Pointer where
  x : ℤ
  y : ℤ
  left : Bool
  right : Bool
  deriving DecidableEq, Repr

structure Mouse where
  mouseCycle : ℕ
  mouse1 : Byte
  mouse2 : Byte
  pointer : Pointer
  deriving DecidableEq, Repr

def mouseAccelThreshold : ℤ := 5
def mouseAccelFactor : ℤ := 2
def mouseBaseDivisor : ℤ := 5

def applyMouseAccel (delta : ℤ) : ℤ :=
  if delta = 0 then 0
  else
    let sign := if delta > 0 then 1 else -1
    let absDelta := if delta < 0 then -delta else delta
    let scaled := absDelta / mouseBaseDivisor
    let scaled :=
      if absDelta > mouseAccelThreshold then
        scaled + (absDelta - mouseAccelThreshold) * mouseAccelFactor / mouseBaseDivisor
      else scaled
    let scaled := if scaled = 0 then 1 else scaled
    sign * scaled

/-- `if (x && mouse1 & sign) x -= 0x100`. -/
def movement (sign : Bool) (byte : Byte) : ℤ := if byte ≠ 0 ∧ sign then byte.toNat - 0x100 else byte.toNat

/-- A coordinate that is kept on the screen. -/
def clampTo (size : BitVec 32) (position : ℤ) : ℤ :=
  let position := if position < 0 then 0 else position
  if position > size.toNat - 1 then size.toNat - 1 else position

structure Packet where
  mouse1 : Byte
  mouse2 : Byte
  mouse3 : Byte
  deriving DecidableEq, Repr

/-- The last byte of a packet. -/
def takePacket (screen : Screen) (p : Pointer) (k : Packet) : Pointer where
  x := clampTo screen.width (p.x + applyMouseAccel (movement (k.mouse1.getLsbD 4) k.mouse2))
  y := clampTo screen.height (p.y + applyMouseAccel (-movement (k.mouse1.getLsbD 5) k.mouse3))
  left := k.mouse1.getLsbD 0
  right := k.mouse1.getLsbD 1

/-- One interrupt; the second component says whether `GUI_input_loop` runs. -/
def mouseIrq (screen : Screen) (s : Mouse) (byte : Byte) : Mouse × Bool :=
  if s.mouseCycle = 0 then
    if byte.getLsbD 3 = false then ({ s with mouse1 := byte, mouseCycle := 0 }, false)
    else ({ s with mouse1 := byte, mouseCycle := 1 }, false)
  else if s.mouseCycle = 1 then ({ s with mouse2 := byte, mouseCycle := 2 }, false)
  else ({ s with pointer := takePacket screen s.pointer ⟨s.mouse1, s.mouse2, byte⟩, mouseCycle := 0 }, true)

/-- The interrupts of a stream of bytes, with what `GUI_input_loop` sees each time it runs. -/
def irqs (screen : Screen) (s : Mouse) : List Byte → Mouse × List Pointer
  | [] => (s, [])
  | byte :: bytes =>
    let (s, runs) := mouseIrq screen s byte
    let (t, pointers) := irqs screen s bytes
    (t, if runs then s.pointer :: pointers else pointers)

/-! ### Packets -/

/-- The packets of a stream: three bytes each, the first with its bit 3. -/
def packets : List Byte → List Packet
  | b :: x :: y :: rest => if b.getLsbD 3 then ⟨b, x, y⟩ :: packets rest else packets (x :: y :: rest)
  | _ => []

/-- The pointer behind each packet. -/
def follow (screen : Screen) (p : Pointer) : List Packet → List Pointer
  | [] => []
  | k :: ks => takePacket screen p k :: follow screen (takePacket screen p k) ks

def Pointer.Inside (screen : Screen) (p : Pointer) : Prop :=
  (0 ≤ p.x ∧ p.x < screen.width.toNat) ∧ 0 ≤ p.y ∧ p.y < screen.height.toNat

/-- A move of the hand, up to the 255 steps that a packet can carry, and the buttons. -/
structure Move where
  dx : ℤ
  dy : ℤ
  left : Bool
  right : Bool
  dx_le : -255 ≤ dx ∧ dx ≤ 255
  dy_le : -255 ≤ dy ∧ dy ≤ 255

/-- The first byte of a packet: the buttons, the bit that is always set, and the signs of the movements. -/
def flags (left right backX backY : Bool) : Byte :=
  BitVec.ofNat 8 (left.toNat + 2 * right.toNat + 8 + 16 * backX.toNat + 32 * backY.toNat)

/-- The packet that a mouse sends. -/
def Move.packet (m : Move) : Packet where
  mouse1 := flags m.left m.right (m.dx < 0) (m.dy < 0)
  mouse2 := BitVec.ofInt 8 m.dx
  mouse3 := BitVec.ofInt 8 m.dy

def Packet.bytes (k : Packet) : List Byte := [k.mouse1, k.mouse2, k.mouse3]

/-- The pointer after a move. -/
def Pointer.move (screen : Screen) (p : Pointer) (m : Move) : Pointer where
  x := clampTo screen.width (p.x + applyMouseAccel m.dx)
  y := clampTo screen.height (p.y - applyMouseAccel m.dy)
  left := m.left
  right := m.right

/-- The pointer behind each of a list of moves. -/
def Pointer.moves (screen : Screen) (p : Pointer) : List Move → List Pointer
  | [] => []
  | m :: ms => p.move screen m :: (p.move screen m).moves screen ms

section Stream
variable {screen : Screen} {s : Mouse} {p : Pointer} {bytes rest noise : List Byte}

theorem clampTo_inside {size : BitVec 32} (hpos : 0 < size.toNat) (position : ℤ) :
    0 ≤ clampTo size position ∧ clampTo size position < size.toNat := by
  simp only [clampTo]
  split_ifs <;> omega

theorem takePacket_inside (p : Pointer) (k : Packet) : (takePacket screen p k).Inside screen :=
  ⟨clampTo_inside screen.width_pos _, clampTo_inside screen.height_pos _⟩

theorem follow_inside (ks : List Packet) : ∀ q ∈ follow screen p ks, q.Inside screen := by
  induction ks generalizing p with
  | nil => simp [follow]
  | cons k ks ih =>
    rw [follow, List.forall_mem_cons]
    exact ⟨takePacket_inside p k, ih⟩

theorem mouseIrq_drop {byte : Byte} (hcycle : s.mouseCycle = 0) (hsync : byte.getLsbD 3 = false) :
    mouseIrq screen s byte = ({ s with mouse1 := byte }, false) := by
  rw [mouseIrq, if_pos hcycle, if_pos hsync, ← hcycle]

theorem mouseIrq_first {byte : Byte} (hcycle : s.mouseCycle = 0) (hsync : byte.getLsbD 3 = true) :
    mouseIrq screen s byte = ({ s with mouse1 := byte, mouseCycle := 1 }, false) := by
  rw [mouseIrq, if_pos hcycle, hsync]
  rfl

theorem irqs_drop (b : Byte) (hcycle : s.mouseCycle = 0) (hsync : b.getLsbD 3 = false) :
    (irqs screen s (b :: rest)).2 = (irqs screen { s with mouse1 := b } rest).2 := by
  simp [irqs, mouseIrq_drop hcycle hsync]

theorem irqs_first (b : Byte) (hcycle : s.mouseCycle = 0) (hsync : b.getLsbD 3 = true) :
    (irqs screen s (b :: rest)).2 = (irqs screen { s with mouse1 := b, mouseCycle := 1 } rest).2 := by
  simp [irqs, mouseIrq_first hcycle hsync]

theorem irqs_packet (b x y : Byte) (hcycle : s.mouseCycle = 0) (hsync : b.getLsbD 3 = true) :
    (irqs screen s (b :: x :: y :: rest)).2 =
      takePacket screen s.pointer ⟨b, x, y⟩ ::
        (irqs screen ⟨0, b, x, takePacket screen s.pointer ⟨b, x, y⟩⟩ rest).2 := by
  rw [irqs_first b hcycle hsync]
  simp [irqs, mouseIrq]

/-- Less than a packet runs nothing. -/
theorem irqs_short (hcycle : s.mouseCycle = 0) (hshort : bytes.length < 3) : (irqs screen s bytes).2 = [] := by
  induction bytes generalizing s with
  | nil => rfl
  | cons b rest ih =>
    cases hsync : b.getLsbD 3 with
    | false =>
      rw [irqs_drop b hcycle hsync]
      exact ih hcycle (by simp at hshort; omega)
    | true =>
      rw [irqs_first b hcycle hsync]
      rcases rest with _ | ⟨x, _ | ⟨y, rest⟩⟩
      · rfl
      · simp [irqs, mouseIrq]
      · simp at hshort; omega

/-- Between packets the driver reads a stream as its packets. -/
theorem irqs_eq (hcycle : s.mouseCycle = 0) : (irqs screen s bytes).2 = follow screen s.pointer (packets bytes) := by
  induction bytes using packets.induct generalizing s with
  | case1 b x y rest hsync ih =>
    rw [packets, if_pos hsync, follow, irqs_packet _ _ _ hcycle hsync, ih rfl]
  | case2 b x y rest hsync ih =>
    rw [packets, if_neg hsync, irqs_drop _ hcycle (by simpa using hsync)]
    exact ih hcycle
  | case3 bytes hshort =>
    rw [packets.eq_2 bytes hshort, irqs_short hcycle, follow]
    rcases bytes with _ | ⟨b, _ | ⟨x, _ | ⟨y, rest⟩⟩⟩
    · simp
    · simp
    · simp
    · exact (hshort b x y rest rfl).elim

/-- Whatever bytes come, `GUI_input_loop` runs once for each packet of the stream, with the pointer on the
screen. -/
theorem gui_input_per_packet (hcycle : s.mouseCycle = 0) :
    (irqs screen s bytes).2 = follow screen s.pointer (packets bytes) ∧
      ∀ q ∈ (irqs screen s bytes).2, q.Inside screen := by
  rw [irqs_eq hcycle]
  exact ⟨rfl, follow_inside _⟩

/-! ### Round trip -/

theorem flags_getLsbD (left right backX backY : Bool) :
    (flags left right backX backY).getLsbD 0 = left ∧ (flags left right backX backY).getLsbD 1 = right ∧
      (flags left right backX backY).getLsbD 3 = true ∧ (flags left right backX backY).getLsbD 4 = backX ∧
        (flags left right backX backY).getLsbD 5 = backY := by
  revert left right backX backY
  decide

theorem movement_ofInt {d : ℤ} (hd : -255 ≤ d ∧ d ≤ 255) : movement (d < 0) (BitVec.ofInt 8 d) = d := by
  have hbyte : ((BitVec.ofInt 8 d).toNat : ℤ) = d % 256 := by
    rw [BitVec.toNat_ofInt]
    omega
  have hzero : BitVec.ofInt 8 d ≠ 0 ↔ (BitVec.ofInt 8 d).toNat ≠ 0 := not_congr BitVec.toNat_inj.symm
  simp only [movement, hzero, decide_eq_true_eq]
  split_ifs <;> omega

theorem applyMouseAccel_neg (delta : ℤ) : applyMouseAccel (-delta) = -applyMouseAccel delta := by
  simp only [applyMouseAccel]
  split_ifs <;> grind

theorem takePacket_packet (m : Move) : takePacket screen p m.packet = p.move screen m := by
  obtain ⟨hleft, hright, -, hx, hy⟩ := flags_getLsbD m.left m.right (m.dx < 0) (m.dy < 0)
  simp only [takePacket, Move.packet, Pointer.move, hleft, hright, hx, hy, movement_ofInt m.dx_le,
    movement_ofInt m.dy_le, applyMouseAccel_neg, Int.sub_eq_add_neg]

theorem packets_cons {b : Byte} (hsync : b.getLsbD 3 = false) : packets (b :: bytes) = packets bytes := by
  rcases bytes with _ | ⟨x, _ | ⟨y, rest⟩⟩
  · rfl
  · rfl
  · rw [packets, hsync]
    rfl

theorem packets_noise (hnoise : ∀ b ∈ noise, b.getLsbD 3 = false) : packets (noise ++ bytes) = packets bytes := by
  induction noise with
  | nil => rfl
  | cons b noise ih =>
    rw [List.forall_mem_cons] at hnoise
    rw [List.cons_append, packets_cons hnoise.1, ih hnoise.2]

theorem packets_packet (m : Move) : packets (m.packet.bytes ++ bytes) = m.packet :: packets bytes := by
  have hsync : m.packet.mouse1.getLsbD 3 = true := (flags_getLsbD _ _ _ _).2.2.1
  simp [Packet.bytes, packets, hsync]

theorem packets_short (hshort : bytes.length < 3) : packets bytes = [] := by
  rcases bytes with _ | ⟨b, _ | ⟨x, _ | ⟨y, rest⟩⟩⟩
  · rfl
  · rfl
  · rfl
  · simp at hshort; omega

theorem follow_moves (ms : List Move) (hshort : bytes.length < 3) :
    follow screen p (packets (ms.flatMap (·.packet.bytes) ++ bytes)) = p.moves screen ms := by
  induction ms generalizing p with
  | nil => rw [List.flatMap_nil, List.nil_append, packets_short hshort, follow, Pointer.moves]
  | cons m ms ih =>
    rw [List.flatMap_cons, List.append_assoc, packets_packet, follow, takePacket_packet, ih, Pointer.moves]

/-- Bytes without bit 3 before the first packet are passed over, and then the pointer follows the hand. -/
theorem pointer_follows_moves (hcycle : s.mouseCycle = 0) (hnoise : ∀ b ∈ noise, b.getLsbD 3 = false)
    (ms : List Move) (hshort : bytes.length < 3) :
    (irqs screen s (noise ++ (ms.flatMap (·.packet.bytes) ++ bytes))).2 = s.pointer.moves screen ms := by
  rw [irqs_eq hcycle, packets_noise hnoise, follow_moves ms hshort]

/-- A byte that is out of step, then a move up and to the left with the left button. -/
theorem pointer_follows_drag :
    (irqs ⟨800, 600, by decide, by decide, by decide, by decide⟩ ⟨0, 0, 0, 400, 300, false, true⟩
      ([0x02] ++ ([⟨-20, 15, true, false, by decide, by decide⟩].flatMap (fun m : Move => m.packet.bytes) ++ []))).2 =
        [⟨390, 293, true, false⟩] :=
  (pointer_follows_moves rfl (by decide) _ (by decide)).trans (by decide)

/-- A byte that is out of step, a packet, and the beginning of another. -/
theorem gui_input_after_noise :
    (irqs ⟨800, 600, by decide, by decide, by decide, by decide⟩ ⟨0, 0, 0, 400, 300, false, true⟩
      [0x02, 0x19, 0xec, 0x0f, 0x08]).2 = [⟨390, 293, true, false⟩] :=
  (gui_input_per_packet rfl).1.trans (by decide)

end Stream

end DualFuse.Drivers.Ps2
