import DualFuse.Library.Loop
import DualFuse.Syscalls.Pipe

/-! Writing to a pipe with `O_NONBLOCK` (`pipe_write` of `syscalls/pipe.cpp`). The loops of
`pipe_write` add up what `pipe_write_inner` returns, and take the error that says that there
is no room for a number of bytes: a write that does not fit is never left. -/

namespace DualFuse.Syscalls

open Library Utility Loop

def ewouldblock : ℤ := 11

/-- Where a call of `pipe_write` is: before the next inner call for chunk `i`, or for the
remainder where `i` is the number of chunks. -/
structure NonblockWrite where
  pipe : PipeInfo
  i : ℕ
  cycle : ℤ
  ret : ℤ

namespace NonblockWrite

variable (src : List Byte)

/-- `pipe_write_inner` on the bytes from `off` on. The sum has 64 bits. -/
def pipeWriteInner (pipe : PipeInfo) (off : ℤ) (limit : ℕ) : Exec (PipeInfo × ℤ) :=
  if wrap (pipe.assigned + limit) > pipeCapacity then .ok (pipe, -ewouldblock)
  else if off < 0 then .error .fault
  else do
    let pipe ← pipe.writeLocked (src.drop off.toNat) limit
    .ok (pipe, wrapInt limit)

def chunks : ℕ := src.length / pipeCapacity

def remainder : ℕ := src.length % pipeCapacity

/-- What the loop counts `cycle` up to. -/
def goal (w : NonblockWrite) : ℕ := if w.i < chunks src then pipeCapacity else remainder src

/-- A test of a loop and the inner call, or what follows the loop. An `int` that overflows is a
fault. -/
def round (w : NonblockWrite) : Exec (Round NonblockWrite (PipeInfo × ℤ)) :=
  if w.i = chunks src ∧ remainder src = 0 then .ok (.done (w.pipe, w.ret))
  else if w.cycle = goal src w then
    if w.ret + w.cycle ≥ 2 ^ 31 then .error .fault
    else if w.i < chunks src then .ok (.next ⟨w.pipe, w.i + 1, 0, w.ret + w.cycle⟩)
    else .ok (.done (w.pipe, w.ret + w.cycle))
  else do
    let (pipe, written) ← pipeWriteInner src w.pipe (w.i * pipeCapacity + w.cycle) (intToSize (goal src w - w.cycle))
    if w.cycle + written < -2 ^ 31 ∨ w.cycle + written ≥ 2 ^ 31 then .error .fault
    else .ok (.next ⟨pipe, w.i, w.cycle + written, w.ret⟩)

def pipeWrite (pipe : PipeInfo) : NonblockWrite := ⟨pipe, 0, 0, 0⟩

/-- The call returns: a first part of the bytes is in the pipe, and its length is returned, or
the error if it is empty. -/
def WritesPrefix (pipe : PipeInfo) : Prop :=
  ∃ pipe' ret, EndsWith (round src) (pipeWrite pipe) (pipe', ret) ∧ ∃ k ≤ src.length,
    pipe'.contents = pipe.contents ++ src.take k ∧ ret = if k = 0 then -ewouldblock else (k : ℤ)

variable {src} {pipe : PipeInfo} {w : NonblockWrite}

/-! ### No room -/

/-- A write that waits for room that it does not get. -/
structure Stuck (src : List Byte) (w : NonblockWrite) : Prop where
  goal_pos : 0 < goal src w
  full : pipeCapacity < w.pipe.assigned + goal src w
  cycle_nonpos : w.cycle ≤ 0
  cycle_int : -2 ^ 31 ≤ w.cycle
  assigned_int : w.pipe.assigned < 2 ^ 31

theorem goal_le (src : List Byte) (w : NonblockWrite) : goal src w ≤ pipeCapacity := by
  unfold goal
  split_ifs
  · exact le_rfl
  · exact (Nat.mod_lt _ (by decide)).le

theorem Stuck.remainder_ne (h : Stuck src w) : ¬(w.i = chunks src ∧ remainder src = 0) := by
  rintro ⟨hi, hzero⟩
  have hpos := h.goal_pos
  rw [goal, if_neg (by omega), hzero] at hpos
  exact lt_irrefl 0 hpos

/-- The inner call returns the error. -/
theorem Stuck.inner (h : Stuck src w) (off : ℤ) :
    pipeWriteInner src w.pipe off (intToSize (goal src w - w.cycle)) = .ok (w.pipe, -ewouldblock) := by
  have hgoal := goal_le src w
  have hfull := h.full
  have hcycle := h.cycle_nonpos
  have hint := h.cycle_int
  have hassigned := h.assigned_int
  unfold pipeCapacity at hgoal hfull
  obtain ⟨n, hn⟩ : ∃ n : ℕ, (goal src w : ℤ) - w.cycle = n := ⟨_, (Int.toNat_of_nonneg (by omega)).symm⟩
  have hlimit : intToSize (goal src w - w.cycle) = n := by
    rw [hn]
    exact intToSize_of_nonneg (by omega)
  have hwrap : wrap (w.pipe.assigned + n) = w.pipe.assigned + n := wrap_of_lt (by omega)
  rw [pipeWriteInner, hlimit, hwrap, if_pos]
  unfold pipeCapacity
  omega

/-- Each round of a stuck write takes eleven from `cycle`, until the `int` overflows. -/
theorem Stuck.round (h : Stuck src w) :
    (∃ w', round src w = .ok (.next w') ∧ Stuck src w') ∨ ∃ e, NonblockWrite.round src w = .error e := by
  have hpos := h.goal_pos
  have hcycle := h.cycle_nonpos
  have hne : w.cycle ≠ goal src w := by omega
  unfold NonblockWrite.round
  rw [if_neg h.remainder_ne, if_neg hne, h.inner, Exec.ok_bind]
  dsimp only
  split_ifs with hover
  · exact Or.inr ⟨_, rfl⟩
  · refine Or.inl ⟨_, rfl, hpos, h.full, ?_, ?_, h.assigned_int⟩
    · dsimp only [ewouldblock]
      omega
    · rw [not_or, not_lt] at hover
      exact hover.1

theorem Stuck.not_ends (h : Stuck src w) (r : PipeInfo × ℤ) : ¬EndsWith (NonblockWrite.round src) w r := by
  rintro ⟨n, hn⟩
  induction n generalizing w with
  | zero => cases hn
  | succ n ih =>
    rcases h.round with ⟨w', hround, hstuck⟩ | ⟨e, he⟩
    · exact ih hstuck (by rwa [run_next hround] at hn)
    · rw [run_error he] at hn
      cases hn

/-! ### Room -/

/-- The bytes of a loop that have room are written by one inner call. -/
theorem round_room (hne : ¬(w.i = chunks src ∧ remainder src = 0)) (hcycle : w.cycle = 0) (hpos : 0 < goal src w)
    (hfits : w.pipe.assigned + goal src w ≤ pipeCapacity) (hinside : w.i * pipeCapacity + goal src w ≤ src.length) :
    ∃ pipe', NonblockWrite.round src w = .ok (.next ⟨pipe', w.i, goal src w, w.ret⟩) ∧
      pipe'.contents = w.pipe.contents ++ (src.drop (w.i * pipeCapacity)).take (goal src w) ∧
      pipe'.assigned = w.pipe.assigned + goal src w := by
  have hgoal := goal_le src w
  have hwrap : wrap (w.pipe.assigned + goal src w) = w.pipe.assigned + goal src w := by
    apply wrap_of_lt
    unfold pipeCapacity at hfits
    omega
  have hroom : w.pipe.hasRoom (goal src w) = true := decide_eq_true hfits
  have hrest : goal src w ≤ (src.drop (w.i * pipeCapacity)).length := by
    rw [List.length_drop]
    omega
  obtain ⟨pipe', hwrite, hcontents, hassigned, -⟩ := PipeInfo.writeLocked_of_room hroom hrest
  have hoff : ((w.i : ℤ) * pipeCapacity + 0).toNat = w.i * pipeCapacity := by
    rw [add_zero, ← Nat.cast_mul, Int.toNat_natCast]
  unfold pipeCapacity at hgoal
  refine ⟨pipe', ?_, hcontents, hassigned⟩
  unfold NonblockWrite.round
  rw [if_neg hne, hcycle, if_neg (by omega), sub_zero, intToSize_of_nonneg (by omega), pipeWriteInner, hwrap,
    if_neg (by omega), if_neg (not_lt.mpr (by positivity)), hoff, hwrite, Exec.ok_bind, Exec.ok_bind]
  dsimp only
  rw [wrapInt_natCast (by omega), zero_add, if_neg (by omega)]

/-- A loop for a chunk that has come to its end. -/
theorem round_next (hgoal : w.cycle = goal src w) (hi : w.i < chunks src) (hret : w.ret = 0) :
    NonblockWrite.round src w = .ok (.next ⟨w.pipe, w.i + 1, 0, pipeCapacity⟩) := by
  have hcapacity : goal src w = pipeCapacity := if_pos hi
  unfold NonblockWrite.round
  rw [if_neg (by omega), if_pos hgoal, hret, hgoal, hcapacity, zero_add, if_neg (by decide), if_pos hi]

theorem chunks_eq_zero (h : src.length < pipeCapacity) : chunks src = 0 := Nat.div_eq_of_lt h

theorem remainder_eq (h : src.length < pipeCapacity) : remainder src = src.length := Nat.mod_eq_of_lt h

theorem length_eq (src : List Byte) : src.length = chunks src * pipeCapacity + remainder src :=
  (Nat.div_add_mod' src.length pipeCapacity).symm

/-- The first loop, if there is room for it. -/
theorem first_loop (src : List Byte) (pipe : PipeInfo) (hpos : 0 < goal src (pipeWrite pipe))
    (hfits : pipe.assigned + goal src (pipeWrite pipe) ≤ pipeCapacity)
    (hinside : goal src (pipeWrite pipe) ≤ src.length) :
    ∃ pipe', round src (pipeWrite pipe) = .ok (.next ⟨pipe', 0, goal src (pipeWrite pipe), 0⟩) ∧
      pipe'.contents = pipe.contents ++ src.take (goal src (pipeWrite pipe)) ∧
      pipe'.assigned = pipe.assigned + goal src (pipeWrite pipe) := by
  have hlength := length_eq src
  have hne : ¬((pipeWrite pipe).i = chunks src ∧ remainder src = 0) := by
    rintro ⟨hi, hzero⟩
    rw [← hi, hzero, pipeWrite, Nat.zero_mul] at hlength
    omega
  have hroom := round_room hne rfl hpos hfits (by rw [pipeWrite, Nat.zero_mul, Nat.zero_add]; exact hinside)
  rwa [pipeWrite, Nat.zero_mul, List.drop_zero] at hroom

/-- A write that is shorter than a chunk. -/
theorem writesPrefix_of_short (hne : src ≠ []) (hshort : src.length < pipeCapacity)
    (hfits : pipe.assigned + src.length ≤ pipeCapacity) : WritesPrefix src pipe := by
  have hpos : 0 < src.length := List.length_pos_iff.mpr hne
  have hchunks := chunks_eq_zero hshort
  have hgoal : ∀ w : NonblockWrite, goal src w = src.length := by
    intro w
    rw [goal, hchunks, if_neg (Nat.not_lt_zero _), remainder_eq hshort]
  obtain ⟨pipe', hround, hcontents, -⟩ := first_loop src pipe (by rw [hgoal]; exact hpos)
    (by rw [hgoal]; exact hfits) (by rw [hgoal])
  rw [hgoal] at hround hcontents
  refine ⟨pipe', src.length, .next hround (endsWith_done ?_), src.length, le_rfl, hcontents, by rw [if_neg hpos.ne']⟩
  unfold pipeCapacity at hshort
  unfold NonblockWrite.round
  rw [hchunks, remainder_eq hshort, if_neg (by omega), hgoal]
  dsimp only
  rw [if_pos rfl, zero_add, if_neg (by omega), if_neg (Nat.not_lt_zero _)]

/-- A write of one chunk to an empty pipe. -/
theorem writesPrefix_of_chunk (hone : src.length = pipeCapacity) (hempty : pipe.assigned = 0) :
    WritesPrefix src pipe := by
  have hchunks : chunks src = 1 := by
    rw [chunks, hone]
    decide
  have hremainder : remainder src = 0 := by
    rw [remainder, hone]
    decide
  have hgoal : goal src (pipeWrite pipe) = pipeCapacity := if_pos (by rw [hchunks]; exact Nat.one_pos)
  obtain ⟨pipe', hround, hcontents, -⟩ := first_loop src pipe (by rw [hgoal]; decide)
    (by rw [hgoal, hempty, Nat.zero_add]) (by rw [hgoal, hone])
  rw [hgoal] at hround hcontents
  have hnext : round src ⟨pipe', 0, pipeCapacity, 0⟩ = .ok (.next ⟨pipe', 1, 0, pipeCapacity⟩) :=
    round_next (by rw [← hgoal]; rfl) (by rw [hchunks]; exact Nat.one_pos) rfl
  refine ⟨pipe', pipeCapacity, .next hround (.next hnext (endsWith_done ?_)), pipeCapacity, hone.ge, hcontents, rfl⟩
  unfold NonblockWrite.round
  rw [hchunks, if_pos ⟨rfl, hremainder⟩]

/-- A write that does not fit does not return. -/
theorem not_ends_of_not_fits (hint : pipe.assigned < 2 ^ 31) (hne : src ≠ [])
    (hnot : pipeCapacity < pipe.assigned + src.length) (r : PipeInfo × ℤ) :
    ¬EndsWith (round src) (pipeWrite pipe) r := by
  have hpos : 0 < src.length := List.length_pos_iff.mpr hne
  have hstuck : 0 < goal src (pipeWrite pipe) → pipeCapacity < pipe.assigned + goal src (pipeWrite pipe) →
      Stuck src (pipeWrite pipe) := fun hgoal hfull => ⟨hgoal, hfull, le_rfl, show (-2 ^ 31 : ℤ) ≤ 0 by decide, hint⟩
  rcases Nat.lt_or_ge src.length pipeCapacity with hshort | hlong
  · have hgoal : goal src (pipeWrite pipe) = src.length := by
      rw [goal, chunks_eq_zero hshort, if_neg (Nat.not_lt_zero _), remainder_eq hshort]
    exact (hstuck (by omega) (by omega)).not_ends r
  · have hchunks : 0 < chunks src := Nat.div_pos hlong (by decide)
    have hgoal : goal src (pipeWrite pipe) = pipeCapacity := if_pos hchunks
    have hcapacity : 0 < pipeCapacity := by decide
    by_cases hempty : pipe.assigned = 0
    · -- the first chunk fills the pipe
      obtain ⟨pipe', hround, -, hassigned⟩ := first_loop src pipe (by omega) (by omega) (by omega)
      have hnext : round src ⟨pipe', 0, goal src (pipeWrite pipe), 0⟩ = .ok (.next ⟨pipe', 1, 0, pipeCapacity⟩) :=
        round_next (by rw [hgoal]; exact (congrArg Nat.cast (if_pos hchunks)).symm) hchunks rfl
      rw [endsWith_next_iff hround, endsWith_next_iff hnext]
      have hlength := length_eq src
      have hgoal' : 0 < goal src ⟨pipe', 1, 0, pipeCapacity⟩ := by
        unfold goal
        split_ifs with hmore
        · exact hcapacity
        · dsimp only at hmore
          have hone : chunks src = 1 := by omega
          rw [hone, Nat.one_mul] at hlength
          omega
      have hfull : pipe'.assigned = pipeCapacity := by omega
      refine Stuck.not_ends ⟨hgoal', ?_, le_rfl, show (-2 ^ 31 : ℤ) ≤ 0 by decide, ?_⟩ r
      · dsimp only
        omega
      · dsimp only
        rw [hfull]
        decide
    · exact (hstuck (by omega) (by omega)).not_ends r

/-- A write returns with a first part of its bytes in the pipe exactly if there are some, and
there is room for all of them. -/
theorem writesPrefix_iff (src : List Byte) (pipe : PipeInfo) (hint : pipe.assigned < 2 ^ 31) :
    WritesPrefix src pipe ↔ src ≠ [] ∧ pipe.assigned + src.length ≤ pipeCapacity := by
  constructor
  · rintro ⟨pipe', ret, hends, k, hk, -, hret⟩
    have hne : src ≠ [] := by
      rintro rfl
      have hdone : round [] (pipeWrite pipe) = .ok (.done (pipe, 0)) := if_pos ⟨rfl, rfl⟩
      have heq := hends.unique (endsWith_done hdone)
      rw [List.length_nil, Nat.le_zero] at hk
      rw [hk, if_pos rfl] at hret
      rw [hret] at heq
      have hzero : -ewouldblock = 0 := congrArg Prod.snd heq
      exact absurd hzero (by decide)
    refine ⟨hne, ?_⟩
    by_contra hnot
    exact not_ends_of_not_fits hint hne (by omega) _ hends
  · rintro ⟨hne, hfits⟩
    rcases Nat.lt_or_ge src.length pipeCapacity with hshort | hlong
    · exact writesPrefix_of_short hne hshort hfits
    · exact writesPrefix_of_chunk (by omega) (by omega)

/-- A byte is written to a pipe that has room for one. -/
theorem writesPrefix_last_place : WritesPrefix [7] ⟨fun _ => 0, 65535, 1⟩ :=
  (writesPrefix_iff [7] ⟨fun _ => 0, 65535, 1⟩ (by decide)).mpr (by decide)

/-- A byte is written to a full pipe, and the call does not return. -/
theorem full_pipe_not_left : ¬WritesPrefix [7] ⟨fun _ => 0, 65536, 1⟩ := by
  rintro ⟨pipe', ret, hends, -⟩
  exact not_ends_of_not_fits (by decide) (List.cons_ne_nil _ _) (by decide) _ hends

end NonblockWrite

end DualFuse.Syscalls
