import DualFuse.Library.Polling

/-! Transfers over I2C (`drivers/i2c.cpp`). Before each byte a transfer waits until the
controller can take or give one, and gives up after a number of reads. The controller is
the sequence of the values that its registers give, whichever register is read. -/

namespace DualFuse.Drivers.I2c

open Library.Polling

/-- What a transfer waits for: room for a command, a received byte, and the last command sent. -/
inductive Wait where
  | tfnf | rxflr | tfe
  deriving DecidableEq

namespace Wait

/-- `timeout` before the first read. -/
def budget : Wait → ℕ
  | tfnf => 100000
  | rxflr => 200000
  | tfe => 200000

/-- The bits of `DW_IC_STATUS` or, for `rxflr`, of `DW_IC_RXFLR`. -/
def ready : Wait → UInt32 → Bool
  | tfnf, v => v &&& 0x02 != 0
  | rxflr, v => v &&& 0xff != 0
  | tfe, v => v &&& 0x04 != 0

end Wait

/-- The registers that are read outside a wait. -/
inductive Register where
  | dataCmd | txAbrtSource | clrTxAbrt
  deriving DecidableEq

inductive Event where
  | wait (w : Wait) (values : List UInt32)
  | read (r : Register) (value : UInt32)
  | write (cmd : UInt32)
  | store (i : ℕ) (b : UInt8)
  deriving DecidableEq

/-- The number of reads so far, and what the transfer did. -/
structure Transfer where
  taken : ℕ
  log : List Event

/-- Where a transfer returns: `short i` after `i` bytes of the buffer were stored. -/
inductive Exit where
  | error | short (i : ℕ) | success
  deriving DecidableEq

section Transfers
variable (reads : ℕ → UInt32)

/-- `while (!(read & mask) && timeout--) {}`: what is left in `timeout`, a `uint32_t`, and the
values read. -/
def poll (ready : UInt32 → Bool) : ℕ → ℕ → ℕ × List UInt32
  | 0, pos => (if ready (reads pos) then 0 else 2 ^ 32 - 1, [reads pos])
  | timeout + 1, pos =>
    if ready (reads pos) then (timeout + 1, [reads pos])
    else
      let (left, values) := poll ready timeout (pos + 1)
      (left, reads pos :: values)

namespace Transfer

def start : Transfer := ⟨0, []⟩

def wait (w : Wait) (s : Transfer) : ℕ × Transfer :=
  let (timeout, values) := poll reads w.ready w.budget s.taken
  (timeout, ⟨s.taken + values.length, s.log ++ [.wait w values]⟩)

def read (r : Register) (s : Transfer) : UInt32 × Transfer :=
  (reads s.taken, ⟨s.taken + 1, s.log ++ [.read r (reads s.taken)]⟩)

def put (e : Event) (s : Transfer) : Transfer := { s with log := s.log ++ [e] }

/-- The loops over the bytes `i`, `i + 1`, ... that wait before each one. -/
def each (w : Wait) (step : ℕ → Transfer → Transfer) : ℕ → ℕ → Transfer → Option ℕ × Transfer
  | 0, _, s => (none, s)
  | n + 1, i, s =>
    let (timeout, s) := s.wait reads w
    if timeout = 0 then (some i, s) else each w step n (i + 1) (step i s)

/-- The loops that push a command for each byte. -/
def push (cmd : ℕ → UInt32) (n : ℕ) (s : Transfer) : Option ℕ × Transfer :=
  s.each reads .tfnf (fun i s => s.put (.write (cmd i))) n 0

/-- `buf[i] = (uint8_t)(i2cRead(base, DW_IC_DATA_CMD) & 0xFF)`. -/
def take (i : ℕ) (s : Transfer) : Transfer :=
  let (v, s) := s.read reads .dataCmd
  s.put (.store i (v &&& 0xff).toUInt8)

/-- The loops that receive each byte. -/
def receive (n : ℕ) (s : Transfer) : Option ℕ × Transfer := s.each reads .rxflr (take reads) n 0

/-- The end of a transfer, where the controller reports an abort. -/
def checkAbort (s : Transfer) : Exit × Transfer :=
  let (abrt, s) := s.read reads .txAbrtSource
  let (_, s) := s.read reads .clrTxAbrt
  if abrt &&& 0x1ffff != 0 then (.error, s) else (.success, s)

end Transfer

open Transfer

def i2cSend (data : ℕ → UInt8) (len : ℕ) : Exit × Transfer :=
  match start.push reads (fun i => (data i).toUInt32) len with
  | (some _, s) => (.error, s)
  | (none, s) =>
    let (_, s) := s.wait reads .tfe
    s.checkAbort reads

/-- The command that asks for a byte. -/
def readCommand : UInt32 := (1 : UInt32) <<< 8

def i2cRecv (len : ℕ) : Exit × Transfer :=
  match start.push reads (fun _ => readCommand) len with
  | (some _, s) => (.error, s)
  | (none, s) =>
    match s.receive reads len with
    | (some i, s) => (.short i, s)
    | (none, s) => (.success, s)

/-- The command for byte `i`, with the stop bit for the last one. -/
def readCommandOf (rlen i : ℕ) : UInt32 := if i = rlen - 1 then readCommand ||| (1 : UInt32) <<< 9 else readCommand

def i2cWriteRead (wbuf : ℕ → UInt8) (wlen rlen : ℕ) : Exit × Transfer :=
  match start.push reads (fun i => (wbuf i).toUInt32) wlen with
  | (some _, s) => (.error, s)
  | (none, s) =>
    match s.push reads (readCommandOf rlen) rlen with
    | (some _, s) => (.error, s)
    | (none, s) =>
      match s.receive reads rlen with
      | (some i, s) => (.short i, s)
      | (none, s) => s.checkAbort reads

end Transfers

/-! ### What a transfer may do -/

/-- A command comes right behind a wait that ended with room for it, and a byte is stored
right behind a wait that ended with a byte, which was then read. -/
def Allowed (before : List Event) : Event → Prop
  | .write _ => ∃ earlier values v, before = earlier ++ [.wait .tfnf (values ++ [v])] ∧ Wait.tfnf.ready v = true
  | .store _ b => ∃ earlier values v d,
      before = earlier ++ [.wait .rxflr (values ++ [v]), .read .dataCmd d] ∧ Wait.rxflr.ready v = true ∧
        b = (d &&& 0xff).toUInt8
  | _ => True

def pushed (log : List Event) : List UInt32 :=
  log.filterMap fun
    | .write cmd => some cmd
    | _ => none

/-- Every wait was answered. -/
def Answered (log : List Event) : Prop := ∀ w values, .wait w values ∈ log → ∃ v ∈ values, w.ready v = true

def stored (log : List Event) : List ℕ :=
  log.filterMap fun
    | .store i _ => some i
    | _ => none

/-- Where a transfer returns when this wait is not answered and `i` bytes are stored. -/
def Wait.failure : Wait → ℕ → Exit
  | tfnf, _ => .error
  | rxflr, i => .short i
  | tfe, _ => .error

/-- A transfer of these commands, and of `n` bytes to the buffer, that is honest about what
it did. -/
structure Honest (cmds : List UInt32) (n : ℕ) (r : Exit × Transfer) : Prop where
  allowed : Permitted Allowed r.2.log
  complete : r.1 = .success → pushed r.2.log = cmds ∧ stored r.2.log = List.range n
  exhausted : ∀ before w values after, r.2.log = before ++ .wait w values :: after →
    (∀ v ∈ values, w.ready v = false) → r.1 = w.failure (stored before).length

section Answered
variable {log more : List Event} {w : Wait} {values : List UInt32}

theorem answered_append_iff : Answered (log ++ more) ↔ Answered log ∧ Answered more := by
  simp [Answered, or_imp, forall_and]

theorem answered_singleton_iff : Answered [.wait w values] ↔ ∃ v ∈ values, w.ready v = true := by
  simp [Answered]

end Answered

/-! ### The waits of a transfer -/

section Waits
variable {reads : ℕ → UInt32} {ready : UInt32 → Bool} {pos k t : ℕ}

theorem poll_answers (h : Answers ready reads pos k) (hk : k ≤ t) :
    poll reads ready t pos = (t - k, values reads pos (k + 1)) := by
  induction t generalizing pos k with
  | zero =>
    obtain rfl : k = 0 := by omega
    have hr : ready (reads pos) = true := h.2
    simp [poll, hr, values]
  | succ t ih =>
    cases k with
    | zero =>
      have hr : ready (reads pos) = true := h.2
      simp [poll, hr, values]
    | succ k =>
      have hr : ready (reads pos) = false := h.1 0 (Nat.succ_pos k)
      simp only [poll, hr, ih h.tail (by omega)]
      rw [values_succ reads pos (k + 1), Nat.add_sub_add_right]
      rfl

theorem poll_silent (h : Silent ready reads pos (t + 1)) :
    poll reads ready t pos = (2 ^ 32 - 1, values reads pos (t + 1)) := by
  induction t generalizing pos with
  | zero =>
    have hr : ready (reads pos) = false := h 0 Nat.one_pos
    simp [poll, hr, values]
  | succ t ih =>
    have hr : ready (reads pos) = false := h 0 (Nat.succ_pos _)
    simp only [poll, hr, ih h.tail]
    rw [values_succ reads pos (t + 1)]
    rfl

/-- The transfer after a wait that take `n` reads. -/
def Transfer.waited (reads : ℕ → UInt32) (w : Wait) (n : ℕ) (s : Transfer) : Transfer :=
  ⟨s.taken + n, s.log ++ [.wait w (values reads s.taken n)]⟩

variable {w : Wait} {s : Transfer}

theorem Transfer.wait_answers (h : Answers w.ready reads s.taken k) (hk : k ≤ w.budget) :
    s.wait reads w = (w.budget - k, s.waited reads w (k + 1)) := by
  unfold wait waited
  simp only [poll_answers h hk, length_values]

/-- The budget of a wait that is not answered wraps around. -/
theorem Transfer.wait_silent (h : Silent w.ready reads s.taken (w.budget + 1)) :
    s.wait reads w = (2 ^ 32 - 1, s.waited reads w (w.budget + 1)) := by
  unfold wait waited
  simp only [poll_silent h, length_values]

end Waits

namespace Transfer

variable {reads : ℕ → UInt32} {w : Wait} {n k : ℕ} {s : Transfer}

@[simp] theorem waited_taken : (s.waited reads w n).taken = s.taken + n := rfl

@[simp] theorem waited_log : (s.waited reads w n).log = s.log ++ [.wait w (values reads s.taken n)] := rfl

@[simp] theorem put_taken (e : Event) : (s.put e).taken = s.taken := rfl

@[simp] theorem put_log (e : Event) : (s.put e).log = s.log ++ [e] := rfl

@[simp] theorem read_taken (r : Register) : (s.read reads r).2.taken = s.taken + 1 := rfl

@[simp] theorem read_log (r : Register) : (s.read reads r).2.log = s.log ++ [.read r (reads s.taken)] := rfl

@[simp] theorem waited_pushed : pushed (s.waited reads w n).log = pushed s.log := by
  simp [pushed]

@[simp] theorem waited_stored : stored (s.waited reads w n).log = stored s.log := by
  simp [stored]

theorem permitted_waited : Permitted Allowed (s.waited reads w n).log ↔ Permitted Allowed s.log := by
  rw [waited_log, permitted_concat_iff]
  exact and_iff_left trivial

/-- A command may follow a wait whose last read found room. -/
theorem permitted_write {cmd : UInt32} (h : Answers Wait.tfnf.ready reads s.taken k) :
    Permitted Allowed ((s.waited reads .tfnf (k + 1)).put (.write cmd)).log ↔ Permitted Allowed s.log := by
  rw [put_log, permitted_concat_iff, permitted_waited]
  apply and_iff_left
  exact ⟨s.log, values reads s.taken k, reads (s.taken + k), by rw [waited_log, values_append], h.2⟩

theorem not_permitted_write {cmd : UInt32} (h : Silent Wait.tfnf.ready reads s.taken (n + 1)) :
    ¬Permitted Allowed ((s.waited reads .tfnf (n + 1)).put (.write cmd)).log := by
  rw [put_log, permitted_concat_iff, waited_log]
  rintro ⟨-, earlier, vs, v, heq, hv⟩
  have hvalues : values reads s.taken (n + 1) = vs ++ [v] := by
    have hlast := List.singleton_inj.mp (List.append_inj' heq rfl).2
    exact (Event.wait.inj hlast).2
  have hmem : v ∈ values reads s.taken (n + 1) := by simp [hvalues]
  simp [h.not_mem_values hmem] at hv

@[simp] theorem take_taken (i : ℕ) : (s.take reads i).taken = s.taken + 1 := rfl

@[simp] theorem take_log (i : ℕ) : (s.take reads i).log =
    s.log ++ [.read .dataCmd (reads s.taken), .store i (reads s.taken &&& 0xff).toUInt8] := by
  simp [take, read]

theorem permitted_take_iff (i : ℕ) : Permitted Allowed (s.take reads i).log ↔
    Permitted Allowed s.log ∧ Allowed (s.log ++ [.read .dataCmd (reads s.taken)])
      (.store i (reads s.taken &&& 0xff).toUInt8) := by
  rw [take_log, List.append_cons, permitted_concat_iff, permitted_concat_iff, and_assoc]
  apply and_congr_right
  exact fun _ => and_iff_right trivial

/-- A byte may be stored behind a wait whose last read found one. -/
theorem permitted_store {i : ℕ} (h : Answers Wait.rxflr.ready reads s.taken k) :
    Permitted Allowed ((s.waited reads .rxflr (k + 1)).take reads i).log ↔ Permitted Allowed s.log := by
  rw [permitted_take_iff, permitted_waited]
  apply and_iff_left
  refine ⟨s.log, values reads s.taken k, reads (s.taken + k), reads (s.taken + (k + 1)), ?_, h.2, rfl⟩
  rw [waited_log, waited_taken, values_append, List.append_assoc]
  rfl

theorem not_permitted_store {i : ℕ} (h : Silent Wait.rxflr.ready reads s.taken (n + 1)) :
    ¬Permitted Allowed ((s.waited reads .rxflr (n + 1)).take reads i).log := by
  rw [permitted_take_iff, waited_log, List.append_assoc]
  rintro ⟨-, earlier, vs, v, d, heq, hv, -⟩
  have hvalues : values reads s.taken (n + 1) = vs ++ [v] := by
    have hlast := (List.cons.inj (List.append_inj' heq rfl).2).1
    exact (Event.wait.inj hlast).2
  have hmem : v ∈ values reads s.taken (n + 1) := by simp [hvalues]
  simp [h.not_mem_values hmem] at hv

/-! ### The loops of a transfer -/

/-- What a loop does for one byte may be done behind an answered wait only. It takes
`extra` further reads. -/
structure IsByte (reads : ℕ → UInt32) (w : Wait) (extra : ℕ) (step : ℕ → Transfer → Transfer) : Prop where
  taken : ∀ i s, (step i s).taken = s.taken + extra
  grows : ∀ i s, ∃ more, (step i s).log = s.log ++ more ∧ Answered more
  answered : ∀ i (s : Transfer) k, Answers w.ready reads s.taken k →
    (Permitted Allowed (step i (s.waited reads w (k + 1))).log ↔ Permitted Allowed s.log)
  silent : ∀ i (s : Transfer) n, Silent w.ready reads s.taken (n + 1) →
    ¬Permitted Allowed (step i (s.waited reads w (n + 1))).log

theorem isByte_write (reads : ℕ → UInt32) (cmd : ℕ → UInt32) :
    IsByte reads .tfnf 0 fun i s => s.put (.write (cmd i)) where
  taken _ _ := rfl
  grows _ _ := ⟨_, rfl, by simp [Answered]⟩
  answered _ _ _ h := permitted_write h
  silent _ _ _ h := not_permitted_write h

theorem isByte_take (reads : ℕ → UInt32) : IsByte reads .rxflr 1 (take reads) where
  taken _ _ := rfl
  grows i s := ⟨_, s.take_log i, by simp [Answered]⟩
  answered _ _ _ h := permitted_store h
  silent _ _ _ h := not_permitted_store h

/-- The waits of a loop over `n` bytes, before what comes `next`. -/
def Waited (reads : ℕ → UInt32) (w : Wait) (extra n : ℕ) (next : ℕ → Prop) : ℕ → Prop :=
  (fun next => Waits w.ready reads w.budget fun pos => next (pos + extra))^[n] next

theorem waited_succ (reads : ℕ → UInt32) (w : Wait) (extra n : ℕ) (next : ℕ → Prop) (pos : ℕ) :
    Waited reads w extra (n + 1) next pos ↔
      Waits w.ready reads w.budget (fun pos => Waited reads w extra n next (pos + extra)) pos := by
  unfold Waited
  rw [Function.iterate_succ_apply']

section Each
variable {step : ℕ → Transfer → Transfer} {i extra : ℕ}

theorem each_answers (h : Answers w.ready reads s.taken k) (hk : k < w.budget) :
    s.each reads w step (n + 1) i = (step i (s.waited reads w (k + 1))).each reads w step n (i + 1) := by
  rw [each, wait_answers h hk.le]
  exact if_neg (by omega)

/-- An answer to the last read comes too late. -/
theorem each_late (h : Answers w.ready reads s.taken w.budget) :
    s.each reads w step (n + 1) i = (some i, s.waited reads w (w.budget + 1)) := by
  rw [each, wait_answers h le_rfl]
  exact if_pos (Nat.sub_self _)

theorem each_silent (h : Silent w.ready reads s.taken (w.budget + 1)) :
    s.each reads w step (n + 1) i = (step i (s.waited reads w (w.budget + 1))).each reads w step n (i + 1) := by
  rw [each, wait_silent h]
  exact if_neg (by norm_num)

/-- A transfer only adds to its log. -/
theorem each_grows (hstep : IsByte reads w extra step) (n i : ℕ) (s : Transfer) :
    ∃ more, (s.each reads w step n i).2.log = s.log ++ more := by
  induction n generalizing i s with
  | zero => exact ⟨[], (List.append_nil _).symm⟩
  | succ n ih =>
    have hgo : ∀ k, ∃ more, ((step i (s.waited reads w k)).each reads w step n (i + 1)).2.log = s.log ++ more := by
      intro k
      obtain ⟨more, hmore⟩ := ih (i + 1) (step i (s.waited reads w k))
      obtain ⟨byte, hbyte, -⟩ := hstep.grows i (s.waited reads w k)
      exact ⟨_, by rw [hmore, hbyte, waited_log, List.append_assoc, List.append_assoc]⟩
    rcases wait_cases w.ready reads w.budget s.taken with ⟨k, hk, h⟩ | h | h
    · rw [each_answers h hk]
      exact hgo _
    · rw [each_late h]
      exact ⟨_, rfl⟩
    · rw [each_silent h]
      exact hgo _

/-- The loop does what it may exactly when each of its waits is answered. -/
theorem each_permitted_iff (hstep : IsByte reads w extra step) {next : ℕ → Prop} (hs : Permitted Allowed s.log) :
    Permitted Allowed (s.each reads w step n i).2.log ∧
        ((s.each reads w step n i).1 = none → next (s.each reads w step n i).2.taken) ↔
      Waited reads w extra n next s.taken := by
  induction n generalizing i s with
  | zero => exact ⟨fun h => h.2 rfl, fun h => ⟨hs, fun _ => h⟩⟩
  | succ n ih =>
    rw [waited_succ]
    rcases wait_cases w.ready reads w.budget s.taken with ⟨k, hk, h⟩ | h | h
    · rw [each_answers h hk, ih ((hstep.answered i s k h).mpr hs), h.waits_iff hk, hstep.taken, waited_taken,
        ← Nat.add_assoc]
    · rw [each_late h]
      exact iff_of_true ⟨permitted_waited.mpr hs, fun h => absurd h (Option.some_ne_none i)⟩ h.waits
    · rw [each_silent h]
      apply iff_of_false _ h.not_waits
      rintro ⟨hperm, -⟩
      obtain ⟨more, hmore⟩ := each_grows hstep n (i + 1) (step i (s.waited reads w (w.budget + 1)))
      rw [hmore] at hperm
      exact hstep.silent i s _ h hperm.of_append

theorem each_answered (hstep : IsByte reads w extra step) {next : ℕ → Prop} (hs : Answered s.log)
    (h : Waited reads w extra n next s.taken) : Answered (s.each reads w step n i).2.log := by
  induction n generalizing i s with
  | zero => exact hs
  | succ n ih =>
    rw [waited_succ] at h
    obtain ⟨k, hk, ha, hnext⟩ := h
    have hwaited : Answered (s.waited reads w (k + 1)).log :=
      answered_append_iff.mpr ⟨hs, answered_singleton_iff.mpr ha.mem_values⟩
    rcases Nat.lt_or_eq_of_le hk with hlt | rfl
    · rw [each_answers ha hlt]
      obtain ⟨byte, hbyte, hquiet⟩ := hstep.grows i (s.waited reads w (k + 1))
      apply ih
      · rw [hbyte]
        exact answered_append_iff.mpr ⟨hwaited, hquiet⟩
      · rw [hstep.taken, waited_taken, ← Nat.add_assoc]
        exact hnext hlt
    · rw [each_late ha]
      exact hwaited

/-- What the log says of each byte, where the loop comes to its end. -/
theorem each_output {β : Type} (out : List Event → List β) (f : ℕ → List β)
    (hwait : ∀ s n, out (waited reads w n s).log = out s.log) (hstep : ∀ i s, out (step i s).log = out s.log ++ f i)
    (h : (s.each reads w step n i).1 = none) :
    out (s.each reads w step n i).2.log = out s.log ++ (List.range' i n).flatMap f := by
  induction n generalizing i s with
  | zero => simp [each]
  | succ n ih =>
    have hgo : ∀ k, ((step i (s.waited reads w k)).each reads w step n (i + 1)).1 = none →
        out ((step i (s.waited reads w k)).each reads w step n (i + 1)).2.log =
          out s.log ++ (List.range' i (n + 1)).flatMap f := by
      intro k hk
      rw [ih hk, hstep, hwait, List.append_assoc, List.range'_succ, List.flatMap_cons]
    rcases wait_cases w.ready reads w.budget s.taken with ⟨k, hk, ha⟩ | ha | ha
    · rw [each_answers ha hk] at h ⊢
      exact hgo _ h
    · rw [each_late ha] at h
      exact absurd h (Option.some_ne_none i)
    · rw [each_silent ha] at h ⊢
      exact hgo _ h

end Each

section Outputs
variable {cmd : ℕ → UInt32}

theorem push_pushed (h : (s.push reads cmd n).1 = none) :
    pushed (s.push reads cmd n).2.log = pushed s.log ++ (List.range n).map cmd := by
  have hout := each_output pushed (fun i => [cmd i]) (fun _ _ => waited_pushed) (by simp [pushed]) h
  rw [← List.range_eq_range'] at hout
  rwa [← List.map_eq_flatMap] at hout

theorem push_stored (h : (s.push reads cmd n).1 = none) : stored (s.push reads cmd n).2.log = stored s.log := by
  have hout := each_output stored (fun _ => []) (fun _ _ => waited_stored) (by simp [stored]) h
  rwa [List.flatMap_eq_nil_iff.mpr fun _ _ => rfl, List.append_nil] at hout

theorem receive_pushed (h : (s.receive reads n).1 = none) : pushed (s.receive reads n).2.log = pushed s.log := by
  have hout := each_output pushed (fun _ => []) (fun _ _ => waited_pushed) (by simp [pushed]) h
  rwa [List.flatMap_eq_nil_iff.mpr fun _ _ => rfl, List.append_nil] at hout

theorem receive_stored (h : (s.receive reads n).1 = none) :
    stored (s.receive reads n).2.log = stored s.log ++ List.range n := by
  have hout := each_output stored (fun i => [i]) (fun _ _ => waited_stored) (by simp [stored]) h
  rwa [← List.range_eq_range', List.flatMap_singleton'] at hout

end Outputs

end Transfer

/-! ### The end of a transfer -/

/-- The controller reports an abort. -/
def Aborted (abrt : UInt32) : Prop := abrt &&& 0x1ffff ≠ 0

instance (abrt : UInt32) : Decidable (Aborted abrt) := inferInstanceAs (Decidable (_ ≠ _))

namespace Transfer

variable {reads : ℕ → UInt32} {s : Transfer}

theorem checkAbort_eq (reads : ℕ → UInt32) (s : Transfer) : s.checkAbort reads =
    (if Aborted (reads s.taken) then .error else .success, ⟨s.taken + 2,
      s.log ++ [.read .txAbrtSource (reads s.taken), .read .clrTxAbrt (reads (s.taken + 1))]⟩) := by
  by_cases h : reads s.taken &&& 0x1ffff = 0
  · simp [checkAbort, read, Aborted, h]
  · simp [checkAbort, read, Aborted, h]

theorem checkAbort_permitted_iff :
    Permitted Allowed (s.checkAbort reads).2.log ↔ Permitted Allowed s.log := by
  rw [checkAbort_eq, List.append_cons, permitted_concat_iff, permitted_concat_iff, and_assoc]
  exact and_iff_left ⟨trivial, trivial⟩

@[simp] theorem checkAbort_pushed : pushed (s.checkAbort reads).2.log = pushed s.log := by
  simp [checkAbort_eq, pushed]

@[simp] theorem checkAbort_stored : stored (s.checkAbort reads).2.log = stored s.log := by
  simp [checkAbort_eq, stored]

theorem checkAbort_answered (h : Answered s.log) : Answered (s.checkAbort reads).2.log := by
  rw [checkAbort_eq]
  exact answered_append_iff.mpr ⟨h, by simp [Answered]⟩

end Transfer

open Transfer

/-- A transfer whose waits were all answered has nothing to be honest about but its end. -/
theorem honest_of_answered {cmds : List UInt32} {n : ℕ} {r : Exit × Transfer} (hallowed : Permitted Allowed r.2.log)
    (hanswered : Answered r.2.log)
    (hcomplete : r.1 = .success → pushed r.2.log = cmds ∧ stored r.2.log = List.range n) : Honest cmds n r where
  allowed := hallowed
  complete := hcomplete
  exhausted before w values after hlog hnone := by
    obtain ⟨v, hv, hready⟩ := hanswered w values (by simp [hlog])
    simp [hnone v hv] at hready

section Honest
variable {reads : ℕ → UInt32} {cmds : List UInt32} {n : ℕ} {s : Transfer}

/-- A transfer that goes on behind this point has done all its bytes, and all its waits so far
were answered. -/
structure Ready (cmds : List UInt32) (n : ℕ) (s : Transfer) : Prop where
  permitted : Permitted Allowed s.log
  answered : Answered s.log
  pushed : pushed s.log = cmds
  stored : stored s.log = List.range n

theorem Ready.honest {r : Exit} (h : Ready cmds n s) : Honest cmds n (r, s) :=
  honest_of_answered h.permitted h.answered fun _ => ⟨h.pushed, h.stored⟩

theorem Ready.waited {w : Wait} {m : ℕ} (h : Ready cmds n s) (hv : ∃ v ∈ values reads s.taken m, w.ready v = true) :
    Ready cmds n (s.waited reads w m) where
  permitted := permitted_waited.mpr h.permitted
  answered := answered_append_iff.mpr ⟨h.answered, answered_singleton_iff.mpr hv⟩
  pushed := waited_pushed.trans h.pushed
  stored := waited_stored.trans h.stored

theorem Ready.checkAbort (h : Ready cmds n s) : Ready cmds n (s.checkAbort reads).2 where
  permitted := checkAbort_permitted_iff.mpr h.permitted
  answered := checkAbort_answered h.answered
  pushed := checkAbort_pushed.trans h.pushed
  stored := checkAbort_stored.trans h.stored

/-- The last wait of `i2cSend` is answered, or an abort is reported behind it. -/
def Drained (reads : ℕ → UInt32) (pos : ℕ) : Prop :=
  Waits Wait.tfe.ready reads Wait.tfe.budget (fun _ => True) pos ∨ Aborted (reads (pos + Wait.tfe.budget + 1))

/-- The end of `i2cSend` behind the last command. -/
theorem drain_honest_iff (hs : Ready cmds n s) :
    Honest cmds n ((s.wait reads .tfe).2.checkAbort reads) ↔ Drained reads s.taken := by
  rcases silent_or_answers Wait.tfe.ready reads s.taken (Wait.tfe.budget + 1) with h | ⟨k, hk, h⟩
  · rw [wait_silent h, checkAbort_eq, waited_taken, ← Nat.add_assoc, waited_log, List.append_assoc]
    by_cases habort : Aborted (reads (s.taken + Wait.tfe.budget + 1))
    · rw [if_pos habort]
      apply iff_of_true _ (.inr habort)
      constructor
      · have hperm : Permitted Allowed ((s.waited reads .tfe (Wait.tfe.budget + 1)).checkAbort reads).2.log :=
          checkAbort_permitted_iff.mpr (permitted_waited.mpr hs.permitted)
        rwa [checkAbort_eq, waited_log, List.append_assoc] at hperm
      · intro hsuccess
        cases hsuccess
      · intro before w vs after hlog hnone
        have hmem : Event.wait w vs ∈ s.log ∨ w = .tfe := by
          have : Event.wait w vs ∈ before ++ .wait w vs :: after := by simp
          rw [← hlog] at this
          simp only [List.mem_append, List.mem_cons, Event.wait.injEq, List.not_mem_nil] at this
          tauto
        rcases hmem with hmem | rfl
        · obtain ⟨v, hv, hready⟩ := hs.answered w vs hmem
          simp [hnone v hv] at hready
        · rfl
    · rw [if_neg habort]
      apply iff_of_false
      · intro hhonest
        have herror := hhonest.exhausted s.log .tfe (values reads s.taken (Wait.tfe.budget + 1)) _ rfl
          fun v hv => h.not_mem_values hv
        cases herror
      · rintro (hw | ha)
        · exact h.not_waits hw
        · exact habort ha
  · rw [wait_answers h (by omega)]
    apply iff_of_true _ (.inl ⟨k, by omega, h, fun _ => trivial⟩)
    exact (hs.waited h.mem_values).checkAbort.honest

theorem checkAbort_grows (reads : ℕ → UInt32) (s : Transfer) : ∃ more, (s.checkAbort reads).2.log = s.log ++ more :=
  ⟨_, by rw [checkAbort_eq]⟩

section Loops
variable {w : Wait} {extra m : ℕ} {step : ℕ → Transfer → Transfer} {next : ℕ → Prop}

/-- A loop that does only what it may had all its waits answered. -/
theorem each_answered_of_permitted (hstep : IsByte reads w extra step) (hs : Permitted Allowed s.log)
    (hans : Answered s.log) (h : Permitted Allowed (s.each reads w step m 0).2.log) :
    Answered (s.each reads w step m 0).2.log := by
  have hwaited : Waited reads w extra m (fun _ => True) s.taken :=
    (each_permitted_iff hstep hs).mp ⟨h, fun _ => trivial⟩
  exact each_answered hstep hans hwaited

/-- A transfer that goes on behind a loop is honest exactly when the waits of the loop are answered
and the rest is honest. Where a loop gives up nothing is left to be honest about. -/
theorem loop_honest_iff (hstep : IsByte reads w extra step) (hs : Permitted Allowed s.log) (hans : Answered s.log)
    {fail : ℕ → Exit} (hfail : ∀ i, fail i ≠ .success) {rest : Transfer → Exit × Transfer}
    (hgrows : ∀ s, ∃ more, (rest s).2.log = s.log ++ more)
    (hrest : (s.each reads w step m 0).1 = none → Permitted Allowed (s.each reads w step m 0).2.log →
      Answered (s.each reads w step m 0).2.log →
        (Honest cmds n (rest (s.each reads w step m 0).2) ↔ next (s.each reads w step m 0).2.taken)) :
    Honest cmds n (match s.each reads w step m 0 with
      | (some i, s) => (fail i, s)
      | (none, s) => rest s) ↔ Waited reads w extra m next s.taken := by
  rw [← each_permitted_iff (i := 0) hstep hs]
  have hanswered := each_answered_of_permitted (m := m) hstep hs hans
  generalize s.each reads w step m 0 = r at hrest hanswered ⊢
  obtain ⟨_ | i, t⟩ := r
  · constructor
    · intro h
      obtain ⟨more, hmore⟩ := hgrows t
      have hperm : Permitted Allowed t.log := by
        have hall := h.allowed
        rw [hmore] at hall
        exact hall.of_append
      exact ⟨hperm, fun _ => (hrest rfl hperm (hanswered hperm)).mp h⟩
    · rintro ⟨hperm, hnext⟩
      exact (hrest rfl hperm (hanswered hperm)).mpr (hnext rfl)
  · constructor
    · exact fun h => ⟨h.allowed, fun hnone => absurd hnone (Option.some_ne_none i)⟩
    · rintro ⟨hperm, -⟩
      exact honest_of_answered hperm (hanswered hperm) fun hsuccess => absurd hsuccess (hfail i)

/-- A transfer only adds to its log where what comes behind its loop does. -/
theorem loop_grows (hstep : IsByte reads w extra step) {fail : ℕ → Exit} {rest : Transfer → Exit × Transfer}
    (hgrows : ∀ s, ∃ more, (rest s).2.log = s.log ++ more) (m : ℕ) (s : Transfer) :
    ∃ more, (match s.each reads w step m 0 with
      | (some i, s) => (fail i, s)
      | (none, s) => rest s).2.log = s.log ++ more := by
  obtain ⟨more, hmore⟩ := each_grows hstep m 0 s
  generalize s.each reads w step m 0 = r at hmore
  obtain ⟨_ | i, t⟩ := r
  · obtain ⟨more', hmore'⟩ := hgrows t
    exact ⟨more ++ more', by rw [hmore', hmore, List.append_assoc]⟩
  · exact ⟨more, hmore⟩

end Loops

end Honest

/-! ### The three transfers -/

section Claims
variable (reads : ℕ → UInt32)

theorem start_answered : Answered start.log := by
  simp [Answered, start]

/-- The waits of `i2cSend`. -/
def SendAnswered (len : ℕ) : Prop := Waited reads .tfnf 0 len (Drained reads) 0

theorem i2cSend_honest_iff (data : ℕ → UInt8) (len : ℕ) :
    Honest ((List.range len).map fun i => (data i).toUInt32) 0 (i2cSend reads data len) ↔ SendAnswered reads len := by
  apply loop_honest_iff (isByte_write reads _) permitted_nil start_answered (fun _ => by decide)
  · intro s
    obtain ⟨more, hmore⟩ := checkAbort_grows reads (s.wait reads .tfe).2
    exact ⟨_, hmore.trans (List.append_assoc _ _ _)⟩
  · intro hdone hperm hans
    apply drain_honest_iff
    exact ⟨hperm, hans, (push_pushed hdone).trans (List.nil_append _), push_stored hdone⟩

/-- The waits of a loop that receives the bytes, and of what comes behind it. -/
def ReceiveAnswered (len : ℕ) : ℕ → Prop := Waited reads .rxflr 1 len fun _ => True

/-- The waits of `i2cRecv`. -/
def RecvAnswered (len : ℕ) : Prop := Waited reads .tfnf 0 len (ReceiveAnswered reads len) 0

/-- The end of a transfer that receives `len` bytes behind its commands. -/
theorem receive_honest_iff {cmds : List UInt32} {len : ℕ} {s : Transfer} (hs : Ready cmds 0 s)
    {rest : Transfer → Exit × Transfer} (hgrows : ∀ s, ∃ more, (rest s).2.log = s.log ++ more)
    (hrest : ∀ s, Ready cmds len s → Honest cmds len (rest s)) :
    Honest cmds len (match s.receive reads len with
      | (some i, s) => (.short i, s)
      | (none, s) => rest s) ↔ ReceiveAnswered reads len s.taken := by
  apply loop_honest_iff (isByte_take reads) hs.permitted hs.answered (fun _ => by simp) hgrows
  intro hdone hperm hans
  apply iff_of_true _ trivial
  apply hrest
  exact ⟨hperm, hans, (receive_pushed hdone).trans hs.pushed, (receive_stored hdone).trans (by rw [hs.stored]; rfl)⟩

theorem receive_grows {rest : Transfer → Exit × Transfer} (hgrows : ∀ s, ∃ more, (rest s).2.log = s.log ++ more)
    (len : ℕ) (s : Transfer) : ∃ more, (match s.receive reads len with
      | (some i, s) => (Exit.short i, s)
      | (none, s) => rest s).2.log = s.log ++ more :=
  loop_grows (isByte_take reads) hgrows len s

theorem i2cRecv_honest_iff (len : ℕ) :
    Honest (List.replicate len readCommand) len (i2cRecv reads len) ↔ RecvAnswered reads len := by
  apply loop_honest_iff (isByte_write reads _) permitted_nil start_answered (fun _ => by simp)
  · exact receive_grows reads (fun s => ⟨[], (List.append_nil _).symm⟩) len
  · intro hdone hperm hans
    have hpushed := (push_pushed hdone).trans (List.nil_append _)
    rw [List.map_const', List.length_range] at hpushed
    apply receive_honest_iff reads ⟨hperm, hans, hpushed, push_stored hdone⟩
    · exact fun s => ⟨[], (List.append_nil _).symm⟩
    · exact fun s hs => hs.honest

/-- The waits of `i2cWriteRead`. -/
def WriteReadAnswered (wlen rlen : ℕ) : Prop :=
  Waited reads .tfnf 0 wlen (Waited reads .tfnf 0 rlen (ReceiveAnswered reads rlen)) 0

theorem i2cWriteRead_honest_iff (wbuf : ℕ → UInt8) (wlen rlen : ℕ) :
    Honest ((List.range wlen).map (fun i => (wbuf i).toUInt32) ++ (List.range rlen).map (readCommandOf rlen)) rlen
      (i2cWriteRead reads wbuf wlen rlen) ↔ WriteReadAnswered reads wlen rlen := by
  apply loop_honest_iff (isByte_write reads _) permitted_nil start_answered (fun _ => by simp)
  · exact loop_grows (isByte_write reads _) (receive_grows reads (checkAbort_grows reads) rlen) rlen
  · intro hdone hperm hans
    apply loop_honest_iff (isByte_write reads _) hperm hans (fun _ => by simp)
    · exact receive_grows reads (checkAbort_grows reads) rlen
    · intro hdone' hperm' hans'
      have hpushed := (push_pushed hdone').trans (congrArg (· ++ _) ((push_pushed hdone).trans (List.nil_append _)))
      apply receive_honest_iff reads ⟨hperm', hans', hpushed, (push_stored hdone').trans (push_stored hdone)⟩
      · exact checkAbort_grows reads
      · exact fun s hs => hs.checkAbort.honest

/-- Each transfer is honest exactly when every wait that it comes to is answered by one of the
reads that its budget allows, up to an abort behind the last wait of `i2cSend`. -/
theorem transfers_honest_iff (data : ℕ → UInt8) (len rlen : ℕ) :
    (Honest ((List.range len).map fun i => (data i).toUInt32) 0 (i2cSend reads data len) ↔ SendAnswered reads len) ∧
      (Honest (List.replicate len readCommand) len (i2cRecv reads len) ↔ RecvAnswered reads len) ∧
      (Honest ((List.range len).map (fun i => (data i).toUInt32) ++ (List.range rlen).map (readCommandOf rlen)) rlen
        (i2cWriteRead reads data len rlen) ↔ WriteReadAnswered reads len rlen) :=
  ⟨i2cSend_honest_iff reads data len, i2cRecv_honest_iff reads len, i2cWriteRead_honest_iff reads data len rlen⟩

/-- Where all registers read as zero, the command for the first byte is pushed nevertheless. -/
theorem silent_controller_pushed : ¬Honest (List.replicate 1 readCommand) 1 (i2cRecv (fun _ => 0) 1) := by
  intro h
  have hsilent : Silent Wait.tfnf.ready (fun _ => 0) 0 (Wait.tfnf.budget + 1) := by
    intro j _
    exact (by decide : Wait.tfnf.ready 0 = false)
  exact hsilent.not_waits ((waited_succ ..).mp ((i2cRecv_honest_iff _ 1).mp h))

end Claims

end DualFuse.Drivers.I2c
