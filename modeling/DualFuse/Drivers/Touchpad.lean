import DualFuse.Library.CString

/-! Touchpad reports (`hidI2cReadReport` and `hidI2cPoll` of `drivers/hid_i2c.cpp`). A transfer
asks for as many bytes as the descriptor declares; it fails, or bytes come, and it may end
before all of them have come. A byte of a buffer that did not come, a byte outside a buffer and
a value outside the range of an `int` are faults. -/

namespace DualFuse.Drivers.Hid

open Library CString

/-- What is used of a descriptor. -/
structure HidI2cDescriptor where
  wMaxInputLength : BitVec 16

structure TouchReport where
  fingerDown : Bool
  x : BitVec 16
  y : BitVec 16
  leftClick : Bool
  rightClick : Bool

/-- `hidLastReport` and `hidLastReportLen`. -/
structure LastReport where
  hidLastReport : List (BitVec 8)
  hidLastReportLen : ℕ
  deriving DecidableEq

/-- The size of `hidLastReport`. -/
def lastReportSize : ℕ := 64

/-- The last report after a reset. -/
def LastReport.reset : LastReport := ⟨List.replicate lastReportSize 0, 0⟩

/-- `SCREEN_WIDTH` and `SCREEN_HEIGHT`. There are pixels, and the longest move of the mouse from
an edge leads to an `int`. -/
structure Screen where
  width : BitVec 32
  height : BitVec 32
  width_pos : 0 < width.toNat
  height_pos : 0 < height.toNat
  width_le : width.toNat + 253 ≤ 2 ^ 31
  height_le : height.toNat + 253 ≤ 2 ^ 31

/-- What is kept between polls: the last report, the position of the mouse, and its buttons. -/
structure Touchpad where
  last : LastReport
  mousePositionX : ℤ
  mousePositionY : ℤ
  clickedLeft : Bool
  clickedRight : Bool
  deriving DecidableEq

/-- The bytes that the device returns, or none where the transfer fails. -/
abbrev Returned := Option (List (BitVec 8))

/-! ### Reports -/

def elanMaxX : ℕ := 3675

def elanMaxY : ℕ := 2261

def hidReportIdTouch : BitVec 8 := 4

def hidReportIdMouse : BitVec 8 := 1

/-- `(uint16_t)lo | ((uint16_t)hi << 8)`. -/
def word (lo hi : BitVec 8) : BitVec 16 := lo.setWidth 16 ||| hi.setWidth 16 <<< 8

/-- The bytes that are asked for. -/
def HidI2cDescriptor.maxLen (desc : HidI2cDescriptor) : ℕ :=
  if desc.wMaxInputLength.toNat < 4 ∨ desc.wMaxInputLength.toNat > 256 then 64 else desc.wMaxInputLength.toNat

/-- `hidReadReg` of `len` bytes to a buffer of `size` bytes: the bytes in the buffer that came. -/
def hidReadReg (size len : ℕ) (returned : Returned) : Exec Returned :=
  if size < len then .error .fault else .ok (returned.map (List.take len))

/-- A coordinate of a touch, not beyond its maximum. -/
def clamped (v : BitVec 16) (max : ℕ) : BitVec 16 := if v.toNat > max then BitVec.ofNat 16 max else v

def noReport : TouchReport := ⟨false, 0, 0, false, false⟩

/-- The report with the identifier of a touch. -/
def touchReport (buf : List (BitVec 8)) (reportLen : ℕ) : Exec TouchReport := do
  let flags ← charAt buf 3
  if flags &&& 2 ≠ 0 ∧ reportLen ≥ 8 then do
    let xl ← charAt buf 4
    let xh ← charAt buf 5
    let yl ← charAt buf 6
    let yh ← charAt buf 7
    .ok ⟨true, clamped (word xl xh) elanMaxX, clamped (word yl yh) elanMaxY, false, false⟩
  else .ok ⟨flags &&& 2 ≠ 0, 0, 0, false, false⟩

/-- The report with the identifier of a mouse. -/
def mouseReport (buf : List (BitVec 8)) : Exec TouchReport := do
  let flags ← charAt buf 3
  let dx ← charAt buf 4
  let dy ← charAt buf 5
  .ok ⟨true, dx.signExtend 16, dy.signExtend 16, flags &&& 1 ≠ 0, flags &&& 2 ≠ 0⟩

/-- `reportLen == hidLastReportLen && memcmp(buf, hidLastReport, reportLen) == 0`. -/
def isRepeated (buf : List (BitVec 8)) (reportLen : ℕ) (s : LastReport) : Exec Bool :=
  if reportLen = s.hidLastReportLen then do
    let order ← memcmp buf s.hidLastReport reportLen
    .ok (order = 0)
  else .ok false

/-- `hidI2cReadReport` behind the length of a report. -/
def readBody (buf : List (BitVec 8)) (reportLen : ℕ) (s : LastReport) : Exec (LastReport × ℤ × TouchReport) := do
  if ← isRepeated buf reportLen s then .ok (s, 0, noReport)
  else do
    let hidLastReport ← memcpy s.hidLastReport 0 buf 0 reportLen
    let s : LastReport := ⟨hidLastReport, reportLen⟩
    let reportId ← charAt buf 2
    if reportId = hidReportIdTouch then do
      let out ← touchReport buf reportLen
      .ok (s, 1, out)
    else if reportId = hidReportIdMouse then do
      let out ← mouseReport buf
      .ok (s, 2, out)
    else .ok (s, 0, noReport)

def hidI2cReadReport (desc : HidI2cDescriptor) (returned : Returned) (s : LastReport) :
    Exec (LastReport × ℤ × TouchReport) := do
  match ← hidReadReg 256 desc.maxLen returned with
  | none => .ok (s, -1, noReport)
  | some buf => do
    let lo ← charAt buf 0
    let hi ← charAt buf 1
    let reportLen := (word lo hi).toNat
    if reportLen < 3 ∨ reportLen > desc.maxLen then .ok (s, 0, noReport) else readBody buf reportLen s

/-! ### The mouse -/

/-- A value that is an `int`. -/
def int (z : ℤ) : Exec ℤ := if -2 ^ 31 ≤ z ∧ z < 2 ^ 31 then .ok z else .error .fault

/-- A coordinate of a touch on the screen, in the words of the code. -/
def scaled (v : BitVec 16) (size : BitVec 32) (max : ℕ) : Exec ℤ :=
  int (v.setWidth 32 * size / BitVec.ofNat 32 max).toNat

/-- `abs_d > 3 ? abs_d + (abs_d - 3) : abs_d`. -/
def accelerated (absD : ℤ) : Exec ℤ :=
  if absD > 3 then do
    let more ← int (absD - 3)
    int (absD + more)
  else .ok absD

/-- A coordinate of the mouse behind a move by `d`. -/
def moved (position d : ℤ) : Exec ℤ :=
  if d ≠ 0 then do
    let absD ← int (if d < 0 then -d else d)
    let step ← accelerated absD
    let signed ← int ((if d > 0 then 1 else -1) * step)
    int (position + signed)
  else .ok position

/-- A coordinate of the mouse behind a report. -/
def coordinate (r : ℤ) (v : BitVec 16) (size : BitVec 32) (max : ℕ) (position : ℤ) : Exec ℤ :=
  if r = 1 then scaled v size max else if r = 2 then moved position v.toInt else .ok position

/-- A coordinate of the mouse, not outside the screen. -/
def onScreen (position : ℤ) (size : BitVec 32) : Exec ℤ := do
  let size ← int size.toNat
  let edge ← int (size - 1)
  let position := if position < 0 then 0 else position
  .ok (if position > edge then edge else position)

/-- `hidI2cPoll` behind the reading of a report. -/
def applyReport (screen : Screen) (r : ℤ) (rep : TouchReport) (s : Touchpad) : Exec Touchpad :=
  if r = 0 ∨ r < 0 then .ok s
  else do
    let x ← coordinate r rep.x screen.width elanMaxX s.mousePositionX
    let y ← coordinate r rep.y screen.height elanMaxY s.mousePositionY
    let x ← onScreen x screen.width
    let y ← onScreen y screen.height
    .ok ⟨s.last, x, y, rep.leftClick, rep.rightClick⟩

def hidI2cPoll (screen : Screen) (desc : HidI2cDescriptor) (returned : Returned) (s : Touchpad) : Exec Touchpad := do
  let (last, r, rep) ← hidI2cReadReport desc returned s.last
  applyReport screen r rep { s with last := last }

/-! ### What a poll is to do -/

/-- The bytes that come in the buffer. -/
def HidI2cDescriptor.received (desc : HidI2cDescriptor) (returned : Returned) : Returned :=
  returned.map (List.take desc.maxLen)

/-- The length that a report declares in its first two bytes. -/
def declared : List (BitVec 8) → Option ℕ
  | lo :: hi :: _ => some (word lo hi).toNat
  | _ => none

/-- A report of this length is neither empty nor longer than what is asked for. -/
def HidI2cDescriptor.Accepts (desc : HidI2cDescriptor) (n : ℕ) : Prop := 3 ≤ n ∧ n ≤ desc.maxLen

instance (desc : HidI2cDescriptor) (n : ℕ) : Decidable (desc.Accepts n) := inferInstanceAs (Decidable (_ ∧ _))

/-- The report that comes in a transfer, if one does: as many bytes as it declares. -/
def HidI2cDescriptor.report (desc : HidI2cDescriptor) (returned : Returned) : Returned :=
  match desc.received returned with
  | none => none
  | some buf =>
    match declared buf with
    | none => none
    | some n => if desc.Accepts n then some (buf.take n) else none

/-- The touchpad, and the last report that came. -/
structure Session where
  pad : Touchpad
  previous : List (BitVec 8)

/-- The mouse is on the screen. -/
def Touchpad.Inside (screen : Screen) (s : Touchpad) : Prop :=
  (0 ≤ s.mousePositionX ∧ s.mousePositionX < screen.width.toNat) ∧
    0 ≤ s.mousePositionY ∧ s.mousePositionY < screen.height.toNat

instance (screen : Screen) (s : Touchpad) : Decidable (s.Inside screen) :=
  inferInstanceAs (Decidable ((_ ∧ _) ∧ _ ∧ _))

/-- The bytes that come have the fields that the code reads of a report with its identifier. -/
def Covered (buf : List (BitVec 8)) : Prop :=
  (buf[2]? = some hidReportIdTouch → 4 ≤ buf.length) ∧ (buf[2]? = some hidReportIdMouse → 6 ≤ buf.length)

namespace Session

def poll (screen : Screen) (desc : HidI2cDescriptor) (s : Session) (returned : Returned) : Exec Session := do
  let pad ← hidI2cPoll screen desc returned s.pad
  .ok ⟨pad, (desc.report returned).getD s.previous⟩

/-- A poll touches only what came, the buffer and the last report, and every value is an `int`.
Behind it the mouse is on the screen. A report leaves everything as it was exactly if it is the
one before it. -/
def Right (screen : Screen) (desc : HidI2cDescriptor) (s : Session) (returned : Returned) : Prop :=
  ∃ pad, hidI2cPoll screen desc returned s.pad = .ok pad ∧ pad.Inside screen ∧
    ∀ p, desc.report returned = some p → (pad = s.pad ↔ p = s.previous)

/-- The two bytes of the length came, and of a report that is not ignored all its bytes came and
fit the last report; unless it is the one before it, its fields came, too. -/
def Sound (desc : HidI2cDescriptor) (s : Session) (returned : Returned) : Prop :=
  match desc.received returned with
  | none => True
  | some buf =>
    match declared buf with
    | none => False
    | some n => desc.Accepts n → (n ≤ buf.length ∧ n ≤ lastReportSize) ∧ (buf.take n = s.previous ∨ Covered buf)

end Session

/-! ### The mouse stays on the screen -/

section Mouse
variable {screen : Screen} {size : BitVec 32} {position d : ℤ} {s : Touchpad} {rep : TouchReport} {r : ℤ}

theorem int_eq {z : ℤ} (h : -2 ^ 31 ≤ z ∧ z < 2 ^ 31) : int z = .ok z := if_pos h

theorem scaled_eq (v : BitVec 16) (size : BitVec 32) {max : ℕ} (hmax : 2 ≤ max) (hlt : max < 2 ^ 32) :
    ∃ z, scaled v size max = .ok z := by
  have hmod : max % 2 ^ 32 = max := Nat.mod_eq_of_lt hlt
  have hquot : (v.setWidth 32 * size / BitVec.ofNat 32 max).toNat < 2 ^ 31 := by
    rw [BitVec.toNat_udiv, BitVec.toNat_ofNat, hmod]
    have hprod := (v.setWidth 32 * size).isLt
    exact (Nat.div_lt_iff_lt_mul (by omega)).mpr (by omega)
  exact ⟨_, int_eq (by omega)⟩

theorem accelerated_eq {a : ℤ} (ha : 0 ≤ a ∧ a ≤ 128) : ∃ z, accelerated a = .ok z ∧ 0 ≤ z ∧ z ≤ 253 := by
  by_cases hmore : a > 3
  · refine ⟨a + (a - 3), ?_, by omega, by omega⟩
    rw [accelerated, if_pos hmore, int_eq (by omega), Exec.ok_bind, int_eq (by omega)]
  · exact ⟨a, if_neg hmore, by omega, by omega⟩

/-- A move by a signed byte leads to an `int`. -/
theorem moved_eq (hpos : 0 ≤ position) (hlt : position + 253 < 2 ^ 31) (hd : -128 ≤ d ∧ d < 128) :
    ∃ z, moved position d = .ok z := by
  by_cases hzero : d ≠ 0
  · obtain ⟨a, ha, hsize⟩ : ∃ a : ℤ, (if d < 0 then -d else d) = a ∧ 0 ≤ a ∧ a ≤ 128 :=
      ⟨_, rfl, by split_ifs <;> omega⟩
    obtain ⟨sign, hsign, hone⟩ : ∃ sign : ℤ, (if d > 0 then 1 else -1) = sign ∧ (sign = 1 ∨ sign = -1) :=
      ⟨_, rfl, by split_ifs <;> simp⟩
    obtain ⟨step, hstep, hlow, hhigh⟩ := accelerated_eq hsize
    rw [moved, if_pos hzero, ha, hsign, int_eq (by omega), Exec.ok_bind, hstep, Exec.ok_bind]
    rcases hone with rfl | rfl
    · exact ⟨_, by rw [int_eq (by omega), Exec.ok_bind, int_eq (by omega)]⟩
    · exact ⟨_, by rw [int_eq (by omega), Exec.ok_bind, int_eq (by omega)]⟩
  · exact ⟨position, if_neg hzero⟩

/-- Whatever the coordinate is, it ends up on the screen. -/
theorem onScreen_eq (position : ℤ) (hpos : 0 < size.toNat) (hle : size.toNat + 253 ≤ 2 ^ 31) :
    ∃ z, onScreen position size = .ok z ∧ 0 ≤ z ∧ z < size.toNat := by
  rw [onScreen, int_eq (by omega), Exec.ok_bind, int_eq (by omega), Exec.ok_bind]
  refine ⟨_, rfl, ?_⟩
  split_ifs <;> omega

/-- What reading a report delivers: nothing, a touch, or a move by signed bytes. -/
def Delivered (r : ℤ) (rep : TouchReport) : Prop :=
  r ≤ 0 ∨ r = 1 ∨ r = 2 ∧ (-128 ≤ rep.x.toInt ∧ rep.x.toInt < 128) ∧ -128 ≤ rep.y.toInt ∧ rep.y.toInt < 128

theorem coordinate_eq {v : BitVec 16} (hr : r = 1 ∨ r = 2 ∧ -128 ≤ v.toInt ∧ v.toInt < 128) {max : ℕ} (hmax : 2 ≤ max)
    (hlt : max < 2 ^ 32) (hpos : 0 ≤ position ∧ position < size.toNat) (hle : size.toNat + 253 ≤ 2 ^ 31) :
    ∃ z, coordinate r v size max position = .ok z := by
  unfold coordinate
  rcases hr with hr | ⟨hr, hd⟩
  · rw [if_pos hr]
    exact scaled_eq v size hmax hlt
  · rw [if_neg (by omega), if_pos hr]
    exact moved_eq hpos.1 (by omega) hd

/-- Behind a report the mouse is on the screen. -/
theorem applyReport_eq (hs : s.Inside screen) (h : Delivered r rep) :
    ∃ t, applyReport screen r rep s = .ok t ∧ t.Inside screen ∧ t.last = s.last ∧ (r ≤ 0 → t = s) := by
  by_cases hr : r ≤ 0
  · exact ⟨s, if_pos (by omega), hs, rfl, fun _ => rfl⟩
  · have hsome : ¬(r = 0 ∨ r < 0) := by omega
    have hmoves := h.resolve_left hr
    obtain ⟨x, hx⟩ := coordinate_eq (hmoves.imp_right fun h => ⟨h.1, h.2.1⟩) (by decide : 2 ≤ elanMaxX) (by decide)
      hs.1 screen.width_le
    obtain ⟨y, hy⟩ := coordinate_eq (hmoves.imp_right fun h => ⟨h.1, h.2.2⟩) (by decide : 2 ≤ elanMaxY) (by decide)
      hs.2 screen.height_le
    obtain ⟨x', hx', hinx⟩ := onScreen_eq x screen.width_pos screen.width_le
    obtain ⟨y', hy', hiny⟩ := onScreen_eq y screen.height_pos screen.height_le
    refine ⟨⟨s.last, x', y', rep.leftClick, rep.rightClick⟩, ?_, ⟨hinx, hiny⟩, rfl, fun hzero => absurd hzero hr⟩
    rw [applyReport, if_neg hsome, hx, Exec.ok_bind, hy, Exec.ok_bind, hx', Exec.ok_bind, hy', Exec.ok_bind]

end Mouse

/-! ### Reading a report -/

section Reading
variable {buf previous : List (BitVec 8)} {s : LastReport} {n : ℕ}

/-- The last report is in its array. -/
structure LastReport.Holds (s : LastReport) (previous : List (BitVec 8)) : Prop where
  size : s.hidLastReport.length = lastReportSize
  length : s.hidLastReportLen = previous.length
  fits : previous.length ≤ lastReportSize
  text : s.hidLastReport.take previous.length = previous

theorem holds_reset : LastReport.reset.Holds [] := ⟨rfl, rfl, by decide, rfl⟩

/-- A report with its bytes is compared with the one before it. -/
theorem isRepeated_eq (h : s.Holds previous) (hn : n ≤ buf.length) :
    isRepeated buf n s = .ok (decide (buf.take n = previous)) := by
  unfold isRepeated
  rw [h.length]
  by_cases hlen : n = previous.length
  · have hlast : n ≤ s.hidLastReport.length := by
      rw [h.size, hlen]
      exact h.fits
    obtain ⟨z, hz, hzero⟩ := memcmp_within hn hlast
    have hequal : z = 0 ↔ buf.take n = previous := hzero.trans (by rw [hlen, h.text])
    rw [if_pos hlen, hz, Exec.ok_bind, decide_eq_decide.mpr hequal]
  · have hne : buf.take n ≠ previous := by
      rintro rfl
      rw [List.length_take] at hlen
      omega
    rw [if_neg hlen, decide_eq_false hne]

/-- A report without its bytes is not found to be the one before it. -/
theorem not_repeated_of_short (hn : buf.length < n) : isRepeated buf n s ≠ .ok true := by
  unfold isRepeated
  split_ifs
  · intro h
    obtain ⟨z, hz, hzero⟩ := Exec.bind_ok_iff.mp h
    obtain rfl : z = 0 := by simpa using hzero
    exact absurd (le_of_memcmp_eq_zero hz) (by omega)
  · intro h
    exact Bool.false_ne_true (Except.ok.inj h)

/-- The fields of a touch are read where its flags came. -/
theorem touchReport_ok (hn : n ≤ buf.length) (hlen : 4 ≤ buf.length) : ∃ out, touchReport buf n = .ok out := by
  rw [touchReport, charAt_eq (by omega), Exec.ok_bind]
  split_ifs with hflags
  · have hlong := hflags.2
    rw [charAt_eq (by omega), Exec.ok_bind, charAt_eq (by omega), Exec.ok_bind, charAt_eq (by omega), Exec.ok_bind,
      charAt_eq (by omega), Exec.ok_bind]
    exact ⟨_, rfl⟩
  · exact ⟨_, rfl⟩

theorem touchReport_came {out : TouchReport} (h : touchReport buf n = .ok out) : 4 ≤ buf.length := by
  obtain ⟨flags, hflags, -⟩ := Exec.bind_ok_iff.mp h
  exact lt_of_charAt hflags

/-- A byte with its sign. -/
theorem toInt_signExtend_bounds (b : BitVec 8) : -128 ≤ (b.signExtend 16).toInt ∧ (b.signExtend 16).toInt < 128 := by
  rw [BitVec.toInt_signExtend_of_le (by decide)]
  exact ⟨BitVec.le_toInt b, BitVec.toInt_lt⟩

/-- The fields of a move are read where they all came. -/
theorem mouseReport_ok (hlen : 6 ≤ buf.length) : ∃ out, mouseReport buf = .ok out ∧ Delivered 2 out := by
  rw [mouseReport, charAt_eq (by omega), Exec.ok_bind, charAt_eq (by omega), Exec.ok_bind, charAt_eq (by omega),
    Exec.ok_bind]
  exact ⟨_, rfl, .inr (.inr ⟨rfl, toInt_signExtend_bounds _, toInt_signExtend_bounds _⟩)⟩

theorem mouseReport_came {out : TouchReport} (h : mouseReport buf = .ok out) : 6 ≤ buf.length := by
  obtain ⟨flags, -, h⟩ := Exec.bind_ok_iff.mp h
  obtain ⟨dx, -, h⟩ := Exec.bind_ok_iff.mp h
  obtain ⟨dy, hdy, -⟩ := Exec.bind_ok_iff.mp h
  exact lt_of_charAt hdy

/-- What reading leaves: the report that came, and nothing new without one that differs from the
one before it. -/
structure Noted (s : LastReport) (previous : List (BitVec 8)) (report : Returned)
    (x : LastReport × ℤ × TouchReport) : Prop where
  delivered : Delivered x.2.1 x.2.2
  holds : x.1.Holds (report.getD previous)
  unchanged : report.getD previous = previous → x.1 = s ∧ x.2.1 ≤ 0

theorem LastReport.Holds.unique {report : List (BitVec 8)} (h : s.Holds previous) (h' : s.Holds report) :
    previous = report := by
  rw [← h.text, ← h'.text, ← h.length, ← h'.length]

/-- Nothing was read. -/
theorem noted_none (h : s.Holds previous) {r : ℤ} (hr : r ≤ 0) (out : TouchReport) :
    Noted s previous none (s, r, out) :=
  ⟨.inl hr, h, fun _ => ⟨rfl, hr⟩⟩

/-- A report whose bytes came and fit, and whose fields came, is read. -/
theorem readBody_ok (h : s.Holds previous) (hthree : 3 ≤ n) (hn : n ≤ buf.length) (hfits : n ≤ lastReportSize)
    (hcovered : buf.take n = previous ∨ Covered buf) :
    ∃ x, readBody buf n s = .ok x ∧ Noted s previous (some (buf.take n)) x := by
  have hlen : (buf.take n).length = n := by rw [List.length_take, min_eq_left hn]
  unfold readBody
  rw [isRepeated_eq h hn, Exec.ok_bind]
  by_cases hsame : buf.take n = previous
  · rw [if_pos (decide_eq_true hsame)]
    exact ⟨_, rfl, ⟨.inl le_rfl, hsame ▸ h, fun _ => ⟨rfl, le_rfl⟩⟩⟩
  · have hcov := hcovered.resolve_left hsame
    have hholds : LastReport.Holds ⟨(buf.take n) ++ s.hidLastReport.drop n, n⟩ (buf.take n) :=
      { size := by rw [List.length_append, List.length_drop, h.size, hlen]; omega
        length := hlen.symm
        fits := by rw [hlen]; exact hfits
        text := List.take_left }
    have hcopy : memcpy s.hidLastReport 0 buf 0 n = .ok (buf.take n ++ s.hidLastReport.drop n) := by
      rw [memcpy, if_pos (by rw [h.size]; omega), List.take_zero, List.nil_append, List.drop_zero, Nat.zero_add]
    have hid : buf[2]? = some buf[2] := List.getElem?_eq_getElem (by omega)
    have hnoted {r : ℤ} {out : TouchReport} (hr : Delivered r out) :
        Noted s previous (some (buf.take n)) (⟨buf.take n ++ s.hidLastReport.drop n, n⟩, r, out) :=
      ⟨hr, hholds, fun heq => absurd heq hsame⟩
    rw [if_neg (by simpa using hsame), hcopy, Exec.ok_bind, charAt_eq (by omega), Exec.ok_bind]
    split_ifs with htouch hmouse
    · obtain ⟨out, hout⟩ := touchReport_ok hn (hcov.1 (by rw [hid, htouch]))
      exact ⟨_, by rw [hout, Exec.ok_bind], hnoted (.inr (.inl rfl))⟩
    · obtain ⟨out, hout, hdelivered⟩ := mouseReport_ok (hcov.2 (by rw [hid, hmouse]))
      exact ⟨_, by rw [hout, Exec.ok_bind], hnoted hdelivered⟩
    · exact ⟨_, rfl, hnoted (.inl le_rfl)⟩

/-- Of a report that is read the bytes came and fit, and its fields came. -/
theorem readBody_came (h : s.Holds previous) {x : LastReport × ℤ × TouchReport} (hread : readBody buf n s = .ok x) :
    (n ≤ buf.length ∧ n ≤ lastReportSize) ∧ (buf.take n = previous ∨ Covered buf) := by
  obtain ⟨repeated, hrepeated, hread⟩ := Exec.bind_ok_iff.mp hread
  cases repeated with
  | true =>
    have hn : n ≤ buf.length := not_lt.mp fun hshort => not_repeated_of_short hshort hrepeated
    rw [isRepeated_eq h hn] at hrepeated
    have hsame : buf.take n = previous := of_decide_eq_true (Except.ok.inj hrepeated)
    have hlen := congrArg List.length hsame
    rw [List.length_take, min_eq_left hn] at hlen
    exact ⟨⟨hn, hlen ▸ h.fits⟩, .inl hsame⟩
  | false =>
    obtain ⟨copied, hcopied, hread⟩ := Exec.bind_ok_iff.mp hread
    have hwithin := memcpy_within hcopied
    rw [h.size] at hwithin
    obtain ⟨reportId, hid, hread⟩ := Exec.bind_ok_iff.mp hread
    have hbyte := charAt_ok_iff.mp hid
    refine ⟨⟨by omega, by omega⟩, .inr ⟨fun htouch => ?_, fun hmouse => ?_⟩⟩
    · obtain rfl := Option.some.inj (hbyte.symm.trans htouch)
      obtain ⟨out, hout, -⟩ := Exec.bind_ok_iff.mp hread
      exact touchReport_came hout
    · obtain rfl := Option.some.inj (hbyte.symm.trans hmouse)
      obtain ⟨out, hout, -⟩ := Exec.bind_ok_iff.mp hread
      exact mouseReport_came hout

end Reading

/-! ### Polls -/

variable {screen : Screen} {desc : HidI2cDescriptor} {s : Session} {returned : Returned}

theorem maxLen_le (desc : HidI2cDescriptor) : desc.maxLen ≤ 256 := by
  unfold HidI2cDescriptor.maxLen
  split_ifs <;> omega

/-- The buffer has room for all that is asked for. -/
theorem hidReadReg_eq (desc : HidI2cDescriptor) (returned : Returned) :
    hidReadReg 256 desc.maxLen returned = .ok (desc.received returned) :=
  if_neg (maxLen_le desc).not_gt

/-- The length of a report is read if its two bytes came. -/
theorem declared_cases (buf : List (BitVec 8)) :
    (declared buf = none ∧ buf.length < 2) ∨
      ∃ lo hi, declared buf = some (word lo hi).toNat ∧ charAt buf 0 = .ok lo ∧ charAt buf 1 = .ok hi := by
  match buf with
  | [] => exact .inl ⟨rfl, by decide⟩
  | [lo] => exact .inl ⟨rfl, Nat.one_lt_two⟩
  | lo :: hi :: rest => exact .inr ⟨lo, hi, rfl, rfl, rfl⟩

/-- The mouse is on the screen, and the last report is kept. -/
structure Session.Kept (screen : Screen) (s : Session) : Prop where
  inside : s.pad.Inside screen
  holds : s.pad.last.Holds s.previous

theorem read_noted (h : s.Kept screen) (hsound : s.Sound desc returned) :
    ∃ x, hidI2cReadReport desc returned s.pad.last = .ok x ∧
      Noted s.pad.last s.previous (desc.report returned) x := by
  unfold Session.Sound at hsound
  unfold hidI2cReadReport HidI2cDescriptor.report
  rw [hidReadReg_eq, Exec.ok_bind]
  cases hreceived : desc.received returned with
  | none => exact ⟨_, rfl, noted_none h.holds (by decide) _⟩
  | some buf =>
    rw [hreceived] at hsound
    dsimp only at hsound ⊢
    rcases declared_cases buf with ⟨hnone, -⟩ | ⟨lo, hi, hsome, hlo, hhi⟩
    · rw [hnone] at hsound
      exact hsound.elim
    · rw [hsome] at hsound ⊢
      rw [hlo, Exec.ok_bind, hhi, Exec.ok_bind]
      dsimp only at hsound ⊢
      by_cases haccepts : desc.Accepts (word lo hi).toNat
      · obtain ⟨⟨hn, hfits⟩, hcovered⟩ := hsound haccepts
        rw [if_pos haccepts, if_neg (by unfold HidI2cDescriptor.Accepts at haccepts; omega)]
        exact readBody_ok h.holds haccepts.1 hn hfits hcovered
      · rw [if_neg haccepts, if_pos (by unfold HidI2cDescriptor.Accepts at haccepts; omega)]
        exact ⟨_, rfl, noted_none h.holds le_rfl _⟩

theorem sound_of_read (h : s.Kept screen) {x : LastReport × ℤ × TouchReport}
    (hread : hidI2cReadReport desc returned s.pad.last = .ok x) : s.Sound desc returned := by
  unfold Session.Sound
  unfold hidI2cReadReport at hread
  rw [hidReadReg_eq, Exec.ok_bind] at hread
  cases hreceived : desc.received returned with
  | none => trivial
  | some buf =>
    rw [hreceived] at hread
    dsimp only at hread ⊢
    rcases declared_cases buf with ⟨hnone, hshort⟩ | ⟨lo, hi, hsome, hlo, hhi⟩
    · obtain ⟨lo, -, hread⟩ := Exec.bind_ok_iff.mp hread
      obtain ⟨hi, hhi, -⟩ := Exec.bind_ok_iff.mp hread
      have := lt_of_charAt hhi
      omega
    · rw [hlo, Exec.ok_bind, hhi, Exec.ok_bind] at hread
      rw [hsome]
      dsimp only at hread ⊢
      intro haccepts
      rw [if_neg (by unfold HidI2cDescriptor.Accepts at haccepts; omega)] at hread
      exact readBody_came h.holds hread

/-- A poll where reading leaves what it is to leave. -/
theorem poll_of_noted (h : s.Kept screen) {x : LastReport × ℤ × TouchReport}
    (hread : hidI2cReadReport desc returned s.pad.last = .ok x)
    (hnoted : Noted s.pad.last s.previous (desc.report returned) x) :
    ∃ pad, hidI2cPoll screen desc returned s.pad = .ok pad ∧
      Session.Kept screen ⟨pad, (desc.report returned).getD s.previous⟩ ∧
      (pad = s.pad ↔ (desc.report returned).getD s.previous = s.previous) := by
  obtain ⟨last, r, rep⟩ := x
  have hinside : Touchpad.Inside screen { s.pad with last := last } := h.inside
  obtain ⟨pad, happly, hpad, hlast, hsame⟩ := applyReport_eq hinside hnoted.delivered
  have hholds : pad.last.Holds ((desc.report returned).getD s.previous) := by
    rw [hlast]
    exact hnoted.holds
  refine ⟨pad, ?_, ⟨hpad, hholds⟩, fun heq => ?_, fun heq => ?_⟩
  · rw [hidI2cPoll, hread, Exec.ok_bind]
    exact happly
  · rw [heq] at hholds
    exact hholds.unique h.holds
  · obtain ⟨hkept, hzero⟩ := hnoted.unchanged heq
    rw [hsame hzero]
    exact congrArg (fun last => { s.pad with last := last }) hkept

theorem right_iff_sound (h : s.Kept screen) : s.Right screen desc returned ↔ s.Sound desc returned := by
  constructor
  · rintro ⟨pad, hpoll, -⟩
    obtain ⟨x, hread, -⟩ := Exec.bind_ok_iff.mp hpoll
    exact sound_of_read h hread
  · intro hsound
    obtain ⟨x, hread, hnoted⟩ := read_noted h hsound
    obtain ⟨pad, hpoll, hkept, hsame⟩ := poll_of_noted h hread hnoted
    refine ⟨pad, hpoll, hkept.inside, fun p hp => ?_⟩
    rw [hp] at hsame
    exact hsame

theorem poll_kept (h : s.Kept screen) (hsound : s.Sound desc returned) {t : Session}
    (hpoll : s.poll screen desc returned = .ok t) : t.Kept screen := by
  obtain ⟨x, hread, hnoted⟩ := read_noted h hsound
  obtain ⟨pad, hpad, hkept, -⟩ := poll_of_noted h hread hnoted
  rw [Session.poll, hpad, Exec.ok_bind] at hpoll
  exact Except.ok.inj hpoll ▸ hkept

/-- In a run of polls after a reset every poll is right exactly if the bytes of each came as its
report needs them. -/
theorem polls_right_iff (screen : Screen) (desc : HidI2cDescriptor) {pad : Touchpad} (hreset : pad.last = .reset)
    (hinside : pad.Inside screen) (transfers : List Returned) :
    Guarded (Session.poll screen desc) (Session.Right screen desc) ⟨pad, []⟩ transfers ↔
      Guarded (Session.poll screen desc) (Session.Sound desc) ⟨pad, []⟩ transfers := by
  have hkept : Session.Kept screen ⟨pad, []⟩ := ⟨hinside, hreset ▸ holds_reset⟩
  have hiff (s : Session) (o : Returned) (h : s.Kept screen) : s.Right screen desc o ↔ s.Sound desc o :=
    right_iff_sound h
  have hkeeps (s : Session) (o : Returned) (t : Session) (h : s.Kept screen) (hsound : s.Sound desc o)
      (hpoll : s.poll screen desc o = .ok t) : t.Kept screen := poll_kept h hsound hpoll
  exact guarded_iff hiff hkeeps hkept

/-- The mouse is in the corner of a screen. -/
def cornered : Touchpad := ⟨.reset, 0, 0, false, false⟩

def smallScreen : Screen := ⟨800, 600, by decide, by decide, by decide, by decide⟩

/-- A touch, and the same report again. -/
theorem touch_polled : Guarded (Session.poll smallScreen ⟨10⟩) (Session.Right smallScreen ⟨10⟩) ⟨cornered, []⟩
    [some [10, 0, 4, 2, 100, 0, 50, 0, 0, 0]] :=
  (polls_right_iff smallScreen ⟨10⟩ rfl (by decide) _).mpr
    ⟨fun _ => ⟨by decide, .inr ⟨fun _ => by decide, fun _ => by decide⟩⟩, fun _ _ => trivial⟩

/-- A report of 100 bytes, of 128 that are asked for, is copied over the end of the last report. -/
theorem long_report_overflows : ¬Guarded (Session.poll smallScreen ⟨128⟩) (Session.Right smallScreen ⟨128⟩)
    ⟨cornered, []⟩ [some (100 :: 0 :: 4 :: List.replicate 125 0)] := by
  rintro ⟨⟨pad, hpoll, -⟩, -⟩
  have hfault : hidI2cPoll smallScreen ⟨128⟩ (some (100 :: 0 :: 4 :: List.replicate 125 0)) cornered =
      .error .fault := rfl
  rw [hfault] at hpoll
  cases hpoll

end DualFuse.Drivers.Hid
