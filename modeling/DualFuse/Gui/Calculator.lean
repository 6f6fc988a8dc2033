import DualFuse.Utility.ShellCalc

/-! The calculator window (`GUI/calculator.cpp`). The number on the display is a string that digits
are put behind, and that `atoi` reads when an operator is pressed. -/

namespace DualFuse.Gui.Calculator

open Library Library.CString Library.Decimal Utility.Numbers

abbrev Key := BitVec 8

/-- The calculator, without its window. -/
structure XPCalculator where
  display : List (BitVec 8)
  accumulator : ℤ
  pendingOp : Key
  freshOperand : Bool
  error : Bool

def displaySize : ℕ := 32

def IsClear (c : Key) : Prop := c = 67 ∨ c = 99

instance (c : Key) : Decidable (IsClear c) := inferInstanceAs (Decidable (_ ∨ _))

def IsEquals (c : Key) : Prop := c = 61 ∨ c = 10 ∨ c = 13

instance (c : Key) : Decidable (IsEquals c) := inferInstanceAs (Decidable (_ ∨ _))

def setDisplay (display : List (BitVec 8)) (c : BitVec 8) : Exec (List (BitVec 8)) := do
  let display ← setAt display 0 c
  setAt display 1 0

def calcReset (s : XPCalculator) : Exec XPCalculator := do
  let display ← setDisplay s.display 48
  .ok ⟨display, 0, 0, true, false⟩

/-- `malloc` leaves any bytes in the display. -/
def createCalculator (memory : Fin displaySize → BitVec 8) : Exec XPCalculator :=
  calcReset ⟨List.ofFn memory, 0, 0, false, false⟩

/-- A quotient of `INT_MIN` and -1 is undefined, and with it the remainder. -/
def applyOp (op : Key) (a b : ℤ) : Exec (ℤ × Bool) :=
  if op = plus then do
    let r ← int (a + b)
    .ok (r, false)
  else if op = minus then do
    let r ← int (a - b)
    .ok (r, false)
  else if op = times then do
    let r ← int (a * b)
    .ok (r, false)
  else if op = slash then
    if b = 0 then .ok (0, true)
    else do
      let q ← int (a.tdiv b)
      .ok (q, false)
  else if op = percent then
    if b = 0 then .ok (0, true)
    else do
      let _ ← int (a.tdiv b)
      .ok (a.tmod b, false)
  else .ok (b, false)

def errorText : List (BitVec 8) := bytes "ERR"

def pressDigit (s : XPCalculator) (c : Key) : Exec XPCalculator :=
  if s.freshOperand then do
    let display ← setDisplay s.display c
    .ok { s with display := display, freshOperand := false }
  else do
    let len ← strlen s.display
    if len < 10 then
      -- no leading zeros
      if ¬(len = 1 ∧ s.display[0]? = some 48) then do
        let display ← setAt s.display len c
        let display ← setAt display (len + 1) 0
        .ok { s with display := display }
      else do
        let display ← setDisplay s.display c
        .ok { s with display := display }
    else .ok s

def pressEquals (s : XPCalculator) : Exec XPCalculator :=
  if s.pendingOp ≠ 0 then do
    let str ← stringAt s.display
    let b ← atoi str
    let (result, err) ← applyOp s.pendingOp s.accumulator b
    if err then do
      let display ← strncpy s.display 0 errorText displaySize
      .ok { s with display := display, error := true, pendingOp := 0, freshOperand := true }
    else do
      let display ← itoaSigned result s.display 10
      .ok { s with display := display, accumulator := result, pendingOp := 0, freshOperand := true }
  else .ok s

def pressOperator (s : XPCalculator) (c : Key) : Exec XPCalculator :=
  if s.pendingOp ≠ 0 ∧ ¬s.freshOperand then do
    let str ← stringAt s.display
    let b ← atoi str
    let (result, err) ← applyOp s.pendingOp s.accumulator b
    if err then do
      let display ← strncpy s.display 0 errorText displaySize
      .ok { s with display := display, error := true, pendingOp := 0 }
    else do
      let display ← itoaSigned result s.display 10
      .ok { s with display := display, accumulator := result, pendingOp := c, freshOperand := true }
  else do
    let str ← stringAt s.display
    let a ← atoi str
    .ok { s with accumulator := a, pendingOp := c, freshOperand := true }

def calcInput (s : XPCalculator) (c : Key) : Exec XPCalculator :=
  if s.error ∧ ¬IsClear c then .ok s
  else if isDigit c then pressDigit s c
  else if IsClear c then calcReset s
  else if IsEquals c then pressEquals s
  else if IsOperator c then pressOperator s c
  else .ok s

/-! ### The calculator as it should be -/

/-- The calculator on integers without a range: what it shows, and what it keeps. Nothing but its error
is shown after an operation that has no value in range. -/
inductive Ideal where
  | error
  | showing (shown acc : ℤ) (pending : Key) (fresh : Bool)

namespace Ideal

def start : Ideal := .showing 0 0 0 true

/-- An operand has up to ten digits. -/
def typed (shown : ℤ) (fresh : Bool) (d : ℕ) : ℤ :=
  if fresh then d else if shown < 10 ^ 9 then 10 * shown + d else shown

def settle (pending : Key) : Option ℤ → Ideal
  | none => .error
  | some r => .showing r r pending true

def press : Ideal → Key → Ideal
  | .error, c => if IsClear c then start else .error
  | .showing shown acc pending fresh, c =>
    if isDigit c then .showing (typed shown fresh (digitValue c)) acc pending false
    else if IsClear c then start
    else if IsEquals c then
      if pending ≠ 0 then settle 0 (evaluate pending acc shown) else .showing shown acc pending fresh
    else if IsOperator c then
      if pending ≠ 0 ∧ ¬fresh then settle c (evaluate pending acc shown)
      else settle c (if InInt shown then some shown else none)
    else .showing shown acc pending fresh

/-- The key does not make the calculator take a number, or a result, that is out of its range. -/
def Fits : Ideal → Key → Prop
  | .error, _ => True
  | .showing shown acc pending fresh, c =>
    (IsEquals c → pending ≠ 0 → Defined pending acc shown) ∧
      (IsOperator c → pending ≠ 0 → fresh = false → Defined pending acc shown) ∧
      (IsOperator c → pending = 0 ∨ fresh = true → Readable shown)

instance : (i : Ideal) → (c : Key) → Decidable (i.Fits c)
  | .error, _ => isTrue trivial
  | .showing _ _ _ _, _ => inferInstanceAs (Decidable ((_ → _ → _) ∧ (_ → _ → _ → _) ∧ (_ → _ → _)))

end Ideal

/-- The calculator shows a number, and will go on with it. -/
structure Showing (s : XPCalculator) (shown acc : ℤ) (pending : Key) (fresh : Bool) : Prop where
  error : s.error = false
  display : Holds s.display (text shown)
  size : s.display.length = displaySize
  accumulator : s.accumulator = acc
  pendingOp : s.pendingOp = pending
  freshOperand : s.freshOperand = fresh
  typed : fresh = false → 0 ≤ shown

/-- The display holds the text that should be there, in its 32 bytes. -/
def Shows (s : XPCalculator) : Ideal → Prop
  | .error => s.error = true ∧ Holds s.display errorText ∧ s.display.length = displaySize
  | .showing shown acc pending fresh => Showing s shown acc pending fresh

/-- No operation of the run is undefined, and its end shows what it should. -/
def KeysRight (memory : Fin displaySize → BitVec 8) (keys : List Key) : Prop :=
  ∃ s s', createCalculator memory = .ok s ∧ run calcInput s keys = .ok s' ∧
    Shows s' (keys.foldl Ideal.press Ideal.start)

/-- Every number that the calculator takes, with integers that have no range, is in range. -/
def KeysFit (keys : List Key) : Prop := Guarded (fun i c => .ok (i.press c)) Ideal.Fits Ideal.start keys

/-! ### The operations -/

section Operations
variable {op : Key} {a b : ℤ}

theorem applyOp_eq (hb : InInt b) :
    applyOp op a b = if IsDivision op ∧ b = 0 then .ok (0, true)
      else if InInt (reach op a b) then .ok (combine op a b, false) else .error .fault := by
  unfold applyOp
  split_ifs with hplus hminus htimes hslash hzero hpercent hzero
  all_goals simp_all [IsDivision, reach, combine, int, plus, minus, times, slash, percent]

/-- A defined operation gives its value, or asks for the error. -/
theorem applyOp_of_defined (h : Defined op a b) :
    applyOp op a b = .ok (match evaluate op a b with | none => (0, true) | some r => (r, false)) := by
  obtain ⟨hread, hcase⟩ := h
  rw [applyOp_eq hread.inInt, evaluate]
  by_cases hzero : IsDivision op ∧ b = 0
  · rw [if_pos hzero, if_pos hzero]
  · have hreach := hcase.resolve_left hzero
    rw [if_neg hzero, if_neg hzero, if_pos hreach, if_pos ⟨hread.inInt, hreach⟩]

theorem applyOp_of_not_defined (hread : Readable b) (h : ¬ Defined op a b) : applyOp op a b = .error .fault := by
  rw [applyOp_eq hread.inInt, if_neg (fun hzero => h ⟨hread, .inl hzero⟩),
    if_neg (fun hreach => h ⟨hread, .inr hreach⟩)]

end Operations

section Keys
variable {s : XPCalculator} {shown acc : ℤ} {pending c : Key} {fresh : Bool}

theorem setDisplay_holds {display : List (BitVec 8)} (hsize : display.length = displaySize) (hc : c ≠ 0) :
    ∃ display', setDisplay display c = .ok display' ∧ Holds display' [c] ∧ display'.length = displaySize := by
  unfold displaySize at hsize
  match display, hsize with
  | b :: b' :: rest, hsize =>
    exact ⟨c :: 0 :: rest, rfl, ⟨fun h => hc (List.mem_singleton.mp h).symm, rest, rfl⟩, hsize⟩

theorem text_natCast (n : ℕ) : text n = numeral n := if_neg (by omega)

theorem reset_shows (hsize : s.display.length = displaySize) :
    ∃ s', calcReset s = .ok s' ∧ Shows s' Ideal.start := by
  obtain ⟨display, hset, hholds, hlength⟩ := setDisplay_holds hsize (by decide : (48 : Key) ≠ 0)
  unfold calcReset
  rw [hset, Exec.ok_bind]
  exact ⟨_, rfl, rfl, hholds, hlength, rfl, rfl, rfl, fun h => by cases h⟩

/-- A digit alone on the display. -/
theorem numeral_digit (hc : isDigit c = true) : text (digitValue c : ℤ) = [c] := by
  rw [text_natCast, numeral_of_lt (digitValue_lt hc), digitChar_digitValue hc]

theorem Showing.digit (h : Showing s shown acc pending fresh) (hc : isDigit c = true) :
    ∃ s', pressDigit s c = .ok s' ∧ Showing s' (Ideal.typed shown fresh (digitValue c)) acc pending false := by
  have hne := ne_zero_of_isDigit hc
  obtain ⟨first, hfirst, hfirstHolds, hfirstLength⟩ := setDisplay_holds h.size hne
  rw [← numeral_digit hc] at hfirstHolds
  unfold pressDigit Ideal.typed
  rw [h.freshOperand]
  cases fresh with
  | true =>
    rw [if_pos rfl, if_pos rfl, hfirst, Exec.ok_bind]
    exact ⟨_, rfl, h.error, hfirstHolds, hfirstLength, h.accumulator, h.pendingOp, rfl, fun _ => by omega⟩
  | false =>
    obtain ⟨n, rfl⟩ := Int.eq_ofNat_of_zero_le (h.typed rfl)
    have hholds := h.display
    rw [text_natCast] at hholds
    rw [if_neg Bool.false_ne_true, if_neg Bool.false_ne_true, hholds.strlen_eq, Exec.ok_bind]
    have hlength := length_numeral_le_iff (n := n) (by omega : 0 < 9)
    by_cases hroom : (numeral n).length < 10
    · have hlt : (n : ℤ) < 10 ^ 9 := by omega
      rw [if_pos hroom, if_pos hlt]
      by_cases hzero : n = 0
      · subst hzero
        have hlone : (numeral 0).length = 1 ∧ s.display[0]? = some 48 := by
          obtain ⟨-, rest, hrest⟩ := hholds
          rw [hrest]
          exact ⟨rfl, rfl⟩
        rw [if_neg (not_not.mpr hlone), hfirst, Exec.ok_bind]
        refine ⟨_, rfl, h.error, ?_, hfirstLength, h.accumulator, h.pendingOp, rfl, fun _ => by omega⟩
        simpa using hfirstHolds
      · have hmore : ¬((numeral n).length = 1 ∧ s.display[0]? = some 48) := by
          rintro ⟨hone, hhead⟩
          obtain ⟨x, hx⟩ := List.length_eq_one_iff.mp hone
          obtain ⟨-, rest, hrest⟩ := hholds
          rw [hrest, hx] at hhead
          cases hhead
          exact hzero (numeral_eq_zero_iff.mp hx)
        have hfits : (numeral n).length + 1 < s.display.length := by
          rw [h.size, displaySize]
          omega
        obtain ⟨display, hset, display', hend, hpushed, hlength'⟩ := hholds.push hne hfits
        rw [if_pos hmore, hset, Exec.ok_bind, hend, Exec.ok_bind]
        refine ⟨_, rfl, h.error, ?_, hlength'.trans h.size, h.accumulator, h.pendingOp, rfl, fun _ => by omega⟩
        have htext : text (10 * (n : ℤ) + digitValue c) = numeral n ++ [c] := by
          have hsnoc := numeral_snoc (Nat.pos_of_ne_zero hzero) (digitValue_lt hc)
          rw [digitChar_digitValue hc, ← text_natCast] at hsnoc
          rw [← hsnoc]
          push_cast
          rfl
        rw [htext]
        exact hpushed
    · have hge : ¬(n : ℤ) < 10 ^ 9 := by omega
      rw [if_neg hroom, if_neg hge]
      exact ⟨s, rfl, h⟩

theorem errorText_shown (hsize : s.display.length = displaySize) :
    ∃ display, strncpy s.display 0 errorText displaySize = .ok display ∧ Holds display errorText ∧
      display.length = displaySize :=
  ⟨_, strncpy_whole _ hsize, holds_padded (by decide) (by decide), length_padded _ _⟩

theorem result_shown (hsize : s.display.length = displaySize) {x : ℤ} (hx : InInt x) :
    ∃ display, itoaSigned x s.display 10 = .ok display ∧ Holds display (text x) ∧ display.length = displaySize := by
  have hlength := length_text_le hx
  have hfits : (text x).length < s.display.length := by
    rw [hsize, displaySize]
    omega
  obtain ⟨display, hwritten, hholds, hsame⟩ := itoaSigned_holds hfits
  exact ⟨display, hwritten, hholds, hsame.trans hsize⟩

/-- The pending operation is applied to the operand on the display. -/
theorem Showing.applied (h : Showing s shown acc pending fresh) {α : Type} (k : ℤ × Bool → Exec α) :
    (stringAt s.display >>= fun str => atoi str >>= fun b => applyOp s.pendingOp s.accumulator b >>= k) =
      if Defined pending acc shown then
        k (match evaluate pending acc shown with | none => (0, true) | some r => (r, false))
      else .error .fault := by
  rw [h.pendingOp, h.accumulator, stringAt_eq h.display, Exec.ok_bind, atoi_text]
  by_cases hread : Readable shown
  · rw [if_pos hread, Exec.ok_bind]
    split_ifs with hdefined
    · rw [applyOp_of_defined hdefined, Exec.ok_bind]
    · rw [applyOp_of_not_defined hread hdefined]
      rfl
  · rw [if_neg hread, if_neg fun hdefined => hread hdefined.1]
    rfl

theorem Showing.equals (h : Showing s shown acc pending fresh) (hpending : pending ≠ 0) :
    (Defined pending acc shown →
        ∃ s', pressEquals s = .ok s' ∧ Shows s' (Ideal.settle 0 (evaluate pending acc shown))) ∧
      (¬ Defined pending acc shown → pressEquals s = .error .fault) := by
  have hpendingOp : s.pendingOp ≠ 0 := fun hzero => hpending (h.pendingOp.symm.trans hzero)
  unfold pressEquals
  rw [if_pos hpendingOp, h.applied]
  constructor
  · intro hdefined
    rw [if_pos hdefined]
    cases hr : evaluate pending acc shown with
    | none =>
      obtain ⟨display, hset, hholds, hsize⟩ := errorText_shown h.size
      dsimp only
      rw [if_pos rfl, hset, Exec.ok_bind]
      exact ⟨_, rfl, rfl, hholds, hsize⟩
    | some r =>
      obtain ⟨display, hset, hholds, hsize⟩ := result_shown h.size (evaluate_inInt hr)
      dsimp only
      rw [if_neg Bool.false_ne_true, hset, Exec.ok_bind]
      exact ⟨_, rfl, h.error, hholds, hsize, rfl, rfl, rfl, fun hfresh => by cases hfresh⟩
  · exact fun hundefined => if_neg hundefined

/-- An operator behind an operand gives the value of the one before. -/
theorem Showing.operator (h : Showing s shown acc pending false) (hpending : pending ≠ 0) (c : Key) :
    (Defined pending acc shown →
        ∃ s', pressOperator s c = .ok s' ∧ Shows s' (Ideal.settle c (evaluate pending acc shown))) ∧
      (¬ Defined pending acc shown → pressOperator s c = .error .fault) := by
  have hchain : s.pendingOp ≠ 0 ∧ ¬s.freshOperand := by
    rw [h.pendingOp, h.freshOperand]
    exact ⟨hpending, Bool.false_ne_true⟩
  unfold pressOperator
  rw [if_pos hchain, h.applied]
  constructor
  · intro hdefined
    rw [if_pos hdefined]
    cases hr : evaluate pending acc shown with
    | none =>
      obtain ⟨display, hset, hholds, hsize⟩ := errorText_shown h.size
      dsimp only
      rw [if_pos rfl, hset, Exec.ok_bind]
      exact ⟨_, rfl, rfl, hholds, hsize⟩
    | some r =>
      obtain ⟨display, hset, hholds, hsize⟩ := result_shown h.size (evaluate_inInt hr)
      dsimp only
      rw [if_neg Bool.false_ne_true, hset, Exec.ok_bind]
      exact ⟨_, rfl, h.error, hholds, hsize, rfl, rfl, rfl, fun hfresh => by cases hfresh⟩
  · exact fun hundefined => if_neg hundefined

/-- Otherwise an operator takes what is shown. -/
theorem Showing.operand (h : Showing s shown acc pending fresh) (hfirst : ¬(pending ≠ 0 ∧ ¬fresh)) (c : Key) :
    (Readable shown → ∃ s', pressOperator s c = .ok s' ∧ Showing s' shown shown c true) ∧
      (¬ Readable shown → pressOperator s c = .error .fault) := by
  unfold pressOperator
  rw [h.pendingOp, h.freshOperand, if_neg hfirst, stringAt_eq h.display, Exec.ok_bind, atoi_text]
  constructor
  · intro hread
    rw [if_pos hread, Exec.ok_bind]
    exact ⟨_, rfl, h.error, h.display, h.size, rfl, rfl, rfl, fun hfresh => by cases hfresh⟩
  · intro hread
    rw [if_neg hread]
    rfl

theorem IsClear.not_digit (h : IsClear c) : isDigit c = false := by
  rcases h with rfl | rfl <;> rfl

theorem IsEquals.other (h : IsEquals c) : isDigit c = false ∧ ¬ IsClear c ∧ ¬ IsOperator c := by
  rcases h with rfl | rfl | rfl <;> decide

theorem isOperator_other (h : IsOperator c) : isDigit c = false ∧ ¬ IsClear c ∧ ¬ IsEquals c := by
  rcases h with rfl | rfl | rfl | rfl | rfl <;> decide

theorem fits_of_other (hequals : ¬ IsEquals c) (hoperator : ¬ IsOperator c) :
    (Ideal.showing shown acc pending fresh).Fits c :=
  ⟨fun h => absurd h hequals, fun h => absurd h hoperator, fun h => absurd h hoperator⟩

theorem fits_equals (h : IsEquals c) :
    (Ideal.showing shown acc pending fresh).Fits c ↔ (pending ≠ 0 → Defined pending acc shown) :=
  ⟨fun hfits => hfits.1 h, fun hdefined =>
    ⟨fun _ => hdefined, fun hop => absurd hop h.other.2.2, fun hop => absurd hop h.other.2.2⟩⟩

theorem fits_operator (h : IsOperator c) :
    (Ideal.showing shown acc pending fresh).Fits c ↔
      if pending ≠ 0 ∧ ¬fresh then Defined pending acc shown else Readable shown := by
  split_ifs with hchain
  · exact ⟨fun hfits => hfits.2.1 h hchain.1 (Bool.eq_false_iff.mpr hchain.2), fun hdefined =>
      ⟨fun heq => absurd heq (isOperator_other h).2.2, fun _ _ _ => hdefined, fun _ hfirst =>
        absurd hchain (by rintro ⟨hpending, hfresh⟩; exact hfirst.elim hpending hfresh)⟩⟩
  · have hfirst : pending = 0 ∨ fresh = true := by
      by_contra hboth
      exact hchain (not_or.mp hboth)
    exact ⟨fun hfits => hfits.2.2 h hfirst, fun hread =>
      ⟨fun heq => absurd heq (isOperator_other h).2.2,
        fun _ hpending hfresh => absurd ⟨hpending, by rw [hfresh]; exact Bool.false_ne_true⟩ hchain,
        fun _ _ => hread⟩⟩

/-- The machine does what it should where the key fits, and stops where it does not. -/
def Follows (s : XPCalculator) (i : Ideal) (c : Key) : Prop :=
  (i.Fits c → ∃ s', calcInput s c = .ok s' ∧ Shows s' (i.press c)) ∧ (¬ i.Fits c → ∃ e, calcInput s c = .error e)

theorem follows_of_fits {i : Ideal} (hfits : i.Fits c) (h : ∃ s', calcInput s c = .ok s' ∧ Shows s' (i.press c)) :
    Follows s i c := ⟨fun _ => h, fun hnot => absurd hfits hnot⟩

theorem follows_of_iff {i : Ideal} {p : Prop} (hfits : i.Fits c ↔ p)
    (hdone : p → ∃ s', calcInput s c = .ok s' ∧ Shows s' (i.press c)) (hstop : ¬ p → calcInput s c = .error .fault) :
    Follows s i c :=
  ⟨fun h => hdone (hfits.mp h), fun h => ⟨_, hstop fun hp => h (hfits.mpr hp)⟩⟩

/-- After an error only the key that clears does anything. -/
theorem follows_error (herror : s.error = true) (hholds : Holds s.display errorText)
    (hsize : s.display.length = displaySize) : Follows s .error c := by
  have hfits : Ideal.error.Fits c := trivial
  apply follows_of_fits hfits
  unfold calcInput
  by_cases hclear : IsClear c
  · have hpress : Ideal.error.press c = Ideal.start := if_pos hclear
    rw [if_neg fun hkey => hkey.2 hclear, hclear.not_digit, if_neg Bool.false_ne_true, if_pos hclear, hpress]
    exact reset_shows hsize
  · have hpress : Ideal.error.press c = .error := if_neg hclear
    rw [if_pos ⟨herror, hclear⟩, hpress]
    exact ⟨s, rfl, herror, hholds, hsize⟩

theorem Showing.follows (h : Showing s shown acc pending fresh) (c : Key) :
    Follows s (.showing shown acc pending fresh) c := by
  have hgoes : calcInput s c = if isDigit c then pressDigit s c else if IsClear c then calcReset s
      else if IsEquals c then pressEquals s else if IsOperator c then pressOperator s c else .ok s := by
    unfold calcInput
    rw [h.error]
    exact if_neg fun hkey => Bool.false_ne_true hkey.1
  by_cases hdigit : isDigit c = true
  · apply follows_of_fits
    · exact fits_of_other (fun heq => absurd hdigit (by rw [heq.other.1]; exact Bool.false_ne_true))
        (fun hop => absurd hdigit (by rw [(isOperator_other hop).1]; exact Bool.false_ne_true))
    · have hpress : (Ideal.showing shown acc pending fresh).press c =
          .showing (Ideal.typed shown fresh (digitValue c)) acc pending false := if_pos hdigit
      rw [hgoes, if_pos hdigit, hpress]
      exact h.digit hdigit
  rw [if_neg hdigit] at hgoes
  by_cases hclear : IsClear c
  · apply follows_of_fits
    · exact fits_of_other (fun heq => heq.other.2.1 hclear) (fun hop => (isOperator_other hop).2.1 hclear)
    · have hpress : (Ideal.showing shown acc pending fresh).press c = .start := by
        rw [Ideal.press, if_neg hdigit, if_pos hclear]
      rw [hgoes, if_pos hclear, hpress]
      exact reset_shows h.size
  rw [if_neg hclear] at hgoes
  by_cases hequals : IsEquals c
  · rw [if_pos hequals] at hgoes
    have hpress : (Ideal.showing shown acc pending fresh).press c =
        if pending ≠ 0 then .settle 0 (evaluate pending acc shown) else .showing shown acc pending fresh := by
      rw [Ideal.press, if_neg hdigit, if_neg hclear, if_pos hequals]
    by_cases hpending : pending ≠ 0
    · obtain ⟨hdone, hstop⟩ := h.equals hpending
      rw [if_pos hpending] at hpress
      apply follows_of_iff ((fits_equals hequals).trans (forall_prop_of_true hpending))
      · rw [hgoes, hpress]
        exact hdone
      · rw [hgoes]
        exact hstop
    · rw [if_neg hpending] at hpress
      apply follows_of_fits ((fits_equals hequals).mpr fun hne => absurd hne hpending)
      rw [hgoes, hpress, pressEquals, h.pendingOp, if_neg hpending]
      exact ⟨s, rfl, h⟩
  rw [if_neg hequals] at hgoes
  by_cases hoperator : IsOperator c
  · rw [if_pos hoperator] at hgoes
    have hpress : (Ideal.showing shown acc pending fresh).press c =
        if pending ≠ 0 ∧ ¬fresh then .settle c (evaluate pending acc shown)
        else .settle c (if InInt shown then some shown else none) := by
      rw [Ideal.press, if_neg hdigit, if_neg hclear, if_neg hequals, if_pos hoperator]
    have hfits : (Ideal.showing shown acc pending fresh).Fits c ↔
        if pending ≠ 0 ∧ ¬fresh then Defined pending acc shown else Readable shown := fits_operator hoperator
    by_cases hchain : pending ≠ 0 ∧ ¬fresh
    · obtain rfl : fresh = false := Bool.eq_false_iff.mpr hchain.2
      obtain ⟨hdone, hstop⟩ := h.operator hchain.1 c
      rw [if_pos hchain] at hpress hfits
      apply follows_of_iff hfits
      · rw [hgoes, hpress]
        exact hdone
      · rw [hgoes]
        exact hstop
    · obtain ⟨hdone, hstop⟩ := h.operand hchain c
      rw [if_neg hchain] at hpress hfits
      apply follows_of_iff hfits
      · intro hread
        rw [if_pos hread.inInt] at hpress
        rw [hgoes, hpress]
        exact hdone hread
      · rw [hgoes]
        exact hstop
  · rw [if_neg hoperator] at hgoes
    have hpress : (Ideal.showing shown acc pending fresh).press c = .showing shown acc pending fresh := by
      rw [Ideal.press, if_neg hdigit, if_neg hclear, if_neg hequals, if_neg hoperator]
    apply follows_of_fits (fits_of_other hequals hoperator)
    rw [hgoes, hpress]
    exact ⟨s, rfl, h⟩

theorem Shows.follows {i : Ideal} (h : Shows s i) (c : Key) : Follows s i c := by
  cases i with
  | error => exact follows_error h.1 h.2.1 h.2.2
  | showing shown acc pending fresh => exact Showing.follows h c

end Keys

/-- A new calculator shows zero, whatever the memory held. -/
theorem createCalculator_shows (memory : Fin displaySize → BitVec 8) :
    ∃ s, createCalculator memory = .ok s ∧ Shows s Ideal.start := by
  unfold createCalculator
  exact reset_shows List.length_ofFn

theorem keysRight_iff (memory : Fin displaySize → BitVec 8) (keys : List Key) :
    KeysRight memory keys ↔ KeysFit keys := by
  obtain ⟨s, hcreate, hshows⟩ := createCalculator_shows memory
  have hfollow : ∀ s i c, Shows s i → i.Fits c → ∃ s', calcInput s c = .ok s' ∧ Shows s' (i.press c) :=
    fun s i c h => (Shows.follows h c).1
  have hstop : ∀ s i c, Shows s i → ¬ i.Fits c → ∃ e, calcInput s c = .error e :=
    fun s i c h => (Shows.follows h c).2
  unfold KeysFit
  rw [← run_follows_iff hfollow hstop hshows]
  constructor
  · rintro ⟨s₀, s', hs₀, hrun, hend⟩
    rw [hcreate] at hs₀
    cases hs₀
    exact ⟨s', hrun, hend⟩
  · rintro ⟨s', hrun, hend⟩
    exact ⟨s, s', hcreate, hrun, hend⟩

open Utility.Shell (TokensRight TokensFit tokensRight_iff bufferSize Text)

/-- Neither calculator evaluates an operation that is undefined, and both give what they should, exactly
where every number on the way, taken from integers without a range, is one that they can hold. -/
theorem calculators_right_iff (memory : Fin displaySize → BitVec 8) (keys : List Key)
    (memory' : Fin bufferSize → BitVec 8) (argv : List Text) :
    (KeysRight memory keys ↔ KeysFit keys) ∧ (TokensRight memory' argv ↔ TokensFit argv) :=
  ⟨keysRight_iff memory keys, tokensRight_iff memory' argv⟩

/-- Ten digits may be typed, and the operator behind them reads a number that is too large. A chain of
small numbers gets there as well. -/
theorem large_operands_overflow :
    ¬ KeysRight (fun _ => 0) (bytes "2147483648+") ∧
      ¬ TokensRight (fun _ => 0) [bytes "CALC", bytes "65536", bytes "*", bytes "65536"] := by
  rw [keysRight_iff, tokensRight_iff]
  constructor
  · unfold KeysFit
    decide +kernel
  · intro hfits
    have hrange := ((hfits (by decide) (by decide)).2.2 (by decide +kernel)).1
    revert hrange
    decide +kernel

end DualFuse.Gui.Calculator
