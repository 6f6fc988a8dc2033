import DualFuse.Library.Places
import DualFuse.Utility.Words

/-! The two calendars: `rtc_to_unix` of `drivers/rtc.cpp` counts from 1970 in 64 bits,
`fat32_unix_time` of `filesystems/fat32/fat32_util.cpp` from 1980 in an `int`, and takes the
date and the time apart that a directory entry has. A sum that does not fit into an `int`
and an index outside a table are faults. -/

namespace DualFuse.Drivers

open Library Utility Places

structure Rtc where
  second : ℕ
  minute : ℕ
  hour : ℕ
  day : ℕ
  month : ℕ
  year : ℕ
  deriving DecidableEq, Repr

def isLeapYear (year : ℤ) : Bool := (year % 4 == 0 && year % 100 != 0) || year % 400 == 0

def daysInMonth (leap : Bool) : List ℕ := [31, if leap then 29 else 28, 31, 30, 31, 30, 31, 31, 30, 31, 30, 31]

def entry (table : List ℕ) (i : ℕ) : Exec ℕ :=
  match table[i]? with
  | none => .error .fault
  | some n => .ok n

/-- `365 + leap`. -/
def daysInYear (year : ℤ) : ℕ := 365 + if isLeapYear year then 1 else 0

/-- The year becomes an `int`; the sum has 64 bits. -/
def rtcToUnix (rtc : Rtc) : Exec ℕ := do
  let year := wrapInt rtc.year
  let seconds ← (List.range (year - 1970).toNat).foldlM
    (fun seconds (y : ℕ) => .ok (seconds + daysInYear (1970 + y) * 86400)) 0
  let seconds ← (List.range (rtc.month - 1)).foldlM
    (fun seconds m => do
      let days ← entry (daysInMonth (isLeapYear year)) m
      .ok (seconds + days * 86400)) seconds
  let day : ℤ := rtc.day - 1
  .ok ((seconds + day * 86400 + rtc.hour * 3600 + rtc.minute * 60 + rtc.second) % 2 ^ 64).toNat

def daysPerMonth : List ℕ := [31, 28, 31, 30, 31, 30, 31, 31, 30, 31, 30, 31]

/-- `days_in_month` of `fat32_util.cpp`. -/
def fat32DaysInMonth (year month : ℕ) : Exec ℕ :=
  if month = 2 ∧ isLeapYear year then .ok 29 else entry daysPerMonth (month - 1)

def daysSince1980 (year month day : ℕ) : Exec ℤ := do
  let days ← (List.range (year - 1980)).foldlM
    (fun days (y : ℕ) => .ok (days + if isLeapYear (1980 + y) then 366 else 365)) 0
  let days ← (List.range (month - 1)).foldlM
    (fun days m => do
      let inMonth ← fat32DaysInMonth year (1 + m)
      .ok (days + inMonth)) days
  .ok (days + day - 1)

def checkInt (z : ℤ) : Exec ℤ := if -2 ^ 31 ≤ z ∧ z < 2 ^ 31 then .ok z else .error .fault

def fat32UnixTime (fatDate fatTime : ℕ) : Exec ℕ := do
  let year := (fatDate >>> 9 &&& 0x7F) + 1980
  let month := fatDate >>> 5 &&& 0x0F
  let day := fatDate &&& 0x1F
  let hour := fatTime >>> 11 &&& 0x1F
  let minute := fatTime >>> 5 &&& 0x3F
  let second := (fatTime &&& 0x1F) * 2
  let days ← daysSince1980 year month day
  let days := days + (365 * 10 + 2)
  let seconds ← checkInt (days * 86400)
  let seconds ← checkInt (seconds + hour * 3600)
  let seconds ← checkInt (seconds + minute * 60)
  let seconds ← checkInt (seconds + second)
  .ok (intToSize seconds)

/-! ### Dates -/

/-- The days of month `m`, counted from 0. -/
def monthDays (year m : ℕ) : ℕ := (daysInMonth (isLeapYear year)).getD m 0

namespace Rtc

/-- A date of the calendar and a time of day; the year has 32 bits. -/
structure Valid (d : Rtc) : Prop where
  month_pos : 1 ≤ d.month
  month_le : d.month ≤ 12
  day_pos : 1 ≤ d.day
  day_le : d.day ≤ monthDays d.year (d.month - 1)
  hour_lt : d.hour < 24
  minute_lt : d.minute < 60
  second_lt : d.second < 60
  year_lt : d.year < 2 ^ 32

/-- Dates are in the order of these lists. -/
def fields (d : Rtc) : List ℕ := [d.year, d.month, d.day, d.hour, d.minute, d.second]

def secondsOfDay (d : Rtc) : ℕ := d.hour * 3600 + d.minute * 60 + d.second

def secondsOfMonth (d : Rtc) : ℕ := (d.day - 1) * 86400 + d.secondsOfDay

def secondsOfYear (d : Rtc) : ℕ := before (fun m => monthDays d.year m * 86400) (d.month - 1) + d.secondsOfMonth

/-- The seconds from the first of January 1970. -/
def seconds (d : Rtc) : ℕ := before (fun y => daysInYear (1970 + y) * 86400) (d.year - 1970) + d.secondsOfYear

/-- The date as a directory entry has it. -/
def fatDate (d : Rtc) : ℕ := (d.year - 1980) * 2 ^ 9 + d.month * 2 ^ 5 + d.day

def fatTime (d : Rtc) : ℕ := d.hour * 2 ^ 11 + d.minute * 2 ^ 5 + d.second / 2

end Rtc

/-! ### The order of dates -/

theorem monthDays_eq (year m : ℕ) (hm : m < 12) :
    entry (daysInMonth (isLeapYear year)) m = .ok (monthDays year m) := by
  have hlength : (daysInMonth (isLeapYear year)).length = 12 := rfl
  rw [entry, monthDays, List.getD_eq_getElem?_getD, List.getElem?_eq_getElem (by omega)]
  rfl

theorem monthDays_le (year m : ℕ) : monthDays year m ≤ 31 := by
  have hall : ∀ days ∈ daysInMonth (isLeapYear year), days ≤ 31 := by
    cases isLeapYear year with
    | false => decide
    | true => decide
  rw [monthDays, List.getD_eq_getElem?_getD]
  cases hdays : (daysInMonth (isLeapYear year))[m]? with
  | none => exact Nat.zero_le 31
  | some days => exact hall days (List.mem_of_getElem? hdays)

theorem before_monthDays (year : ℕ) : before (monthDays year) 12 = daysInYear year := by
  unfold monthDays daysInYear
  cases isLeapYear year with
  | false => rfl
  | true => rfl

namespace Rtc

variable {a b d : Rtc}

theorem Valid.secondsOfDay_lt (h : d.Valid) : d.secondsOfDay < 86400 := by
  have := h.hour_lt
  have := h.minute_lt
  have := h.second_lt
  unfold secondsOfDay
  omega

theorem Valid.secondsOfMonth_lt (h : d.Valid) : d.secondsOfMonth < monthDays d.year (d.month - 1) * 86400 := by
  have := h.secondsOfDay_lt
  have := h.day_pos
  have := h.day_le
  unfold secondsOfMonth
  omega

theorem Valid.secondsOfYear_lt (h : d.Valid) : d.secondsOfYear < daysInYear d.year * 86400 := by
  have hmonth : d.month - 1 < 12 := by
    have := h.month_pos
    have := h.month_le
    omega
  rw [← before_monthDays, ← before_mul]
  exact place_lt_before h.secondsOfMonth_lt hmonth

theorem Valid.secondsOfDay_mono (ha : a.Valid) (h : [a.hour, a.minute, a.second] < [b.hour, b.minute, b.second]) :
    a.secondsOfDay < b.secondsOfDay := by
  have := ha.minute_lt
  have := ha.second_lt
  simp only [List.cons_lt_cons_iff, List.not_lt_nil, and_false, or_false] at h
  unfold secondsOfDay
  omega

theorem Valid.secondsOfMonth_mono (ha : a.Valid) (hb : b.Valid)
    (h : [a.day, a.hour, a.minute, a.second] < [b.day, b.hour, b.minute, b.second]) :
    a.secondsOfMonth < b.secondsOfMonth := by
  have hday := ha.secondsOfDay_lt
  have hpos := ha.day_pos
  have hpos' := hb.day_pos
  unfold secondsOfMonth
  rcases List.cons_lt_cons_iff.mp h with hlt | ⟨heq, h⟩
  · omega
  · rw [heq]
    exact Nat.add_lt_add_left (ha.secondsOfDay_mono h) _

/-- Later dates have more seconds. -/
theorem Valid.seconds_lt (ha : a.Valid) (hb : b.Valid) (hyear : 1970 ≤ a.year) (h : a.fields < b.fields) :
    a.seconds < b.seconds := by
  have hyears : daysInYear (1970 + ((a.year - 1970 : ℕ) : ℤ)) = daysInYear a.year := by
    rw [show (1970 : ℤ) + ((a.year - 1970 : ℕ) : ℤ) = a.year by omega]
  have hpos := ha.month_pos
  apply place_lt (by rw [hyears]; exact ha.secondsOfYear_lt)
  rcases List.cons_lt_cons_iff.mp h with hlt | ⟨heq, h⟩
  · exact Or.inl (by omega)
  refine Or.inr ⟨by rw [heq], ?_⟩
  unfold secondsOfYear
  rw [← heq]
  apply place_lt (by exact ha.secondsOfMonth_lt)
  rcases List.cons_lt_cons_iff.mp h with hlt | ⟨heq, h⟩
  · exact Or.inl (by omega)
  · exact Or.inr ⟨by rw [heq], ha.secondsOfMonth_mono hb h⟩

end Rtc

/-! ### The two functions -/

theorem Rtc.Valid.seconds_lt_pow {d : Rtc} (h : d.Valid) (hhigh : d.year < 2 ^ 31) : d.seconds < 2 ^ 64 := by
  have hyear : ∀ year : ℤ, daysInYear year ≤ 366 := by
    intro year
    unfold daysInYear
    split_ifs
    · exact le_rfl
    · exact Nat.le_succ 365
  have hbefore : before (fun y => daysInYear (1970 + y) * 86400) (d.year - 1970) ≤ (d.year - 1970) * (366 * 86400) :=
    before_le fun i _ => Nat.mul_le_mul_right _ (hyear _)
  have hrest := h.secondsOfYear_lt
  have := Nat.mul_le_mul_right 86400 (hyear d.year)
  unfold Rtc.seconds
  omega

theorem rtcToUnix_eq {d : Rtc} (h : d.Valid) (hlow : 1970 ≤ d.year) (hhigh : d.year < 2 ^ 31) :
    rtcToUnix d = .ok d.seconds := by
  have hyear : wrapInt d.year = d.year := wrapInt_natCast hhigh
  have hcount : ((d.year : ℤ) - 1970).toNat = d.year - 1970 := by omega
  have hday := h.day_pos
  have hmonths : ∀ acc, ∀ m < d.month - 1,
      (do let days ← entry (daysInMonth (isLeapYear d.year)) m; Except.ok (acc + days * 86400) : Exec ℕ) =
        .ok (acc + monthDays d.year m * 86400) := by
    intro acc m hm
    have := h.month_le
    rw [monthDays_eq d.year m (by omega), Exec.ok_bind]
  have hlt := h.seconds_lt_pow hhigh
  unfold rtcToUnix
  dsimp only
  rw [hyear, hcount, foldlM_range_add 0 fun acc i _ => rfl, Exec.ok_bind, foldlM_range_add _ hmonths, Exec.ok_bind]
  have hvalue : ((0 + before (fun y => daysInYear (1970 + y) * 86400) (d.year - 1970) +
      before (fun m => monthDays d.year m * 86400) (d.month - 1) : ℕ) : ℤ) + (d.day - 1 : ℤ) * 86400 + d.hour * 3600 +
        d.minute * 60 + d.second = d.seconds := by
    unfold Rtc.seconds Rtc.secondsOfYear Rtc.secondsOfMonth Rtc.secondsOfDay
    rw [← Nat.cast_pred hday]
    push_cast
    ring
  rw [hvalue, Int.emod_eq_of_lt (Int.natCast_nonneg _) (by exact_mod_cast hlt), Int.toNat_natCast]

theorem fat32DaysInMonth_eq {year m : ℕ} (hm : m < 12) : fat32DaysInMonth year (1 + m) = .ok (monthDays year m) := by
  rw [← monthDays_eq year m hm, fat32DaysInMonth]
  cases isLeapYear year with
  | false =>
    rw [if_neg (by simp), Nat.add_sub_cancel_left]
    rfl
  | true => interval_cases m <;> rfl

theorem daysSince1980_eq {d : Rtc} (h : d.Valid) (hlow : 1980 ≤ d.year) :
    ∃ days : ℕ, daysSince1980 d.year d.month d.day = .ok days ∧
      ((days + (365 * 10 + 2)) * 86400 + d.secondsOfDay : ℕ) = d.seconds := by
  have hten : d.year - 1970 = 10 + (d.year - 1980) := by omega
  have hmonths : ∀ acc, ∀ m < d.month - 1,
      (do let inMonth ← fat32DaysInMonth d.year (1 + m); Except.ok (acc + inMonth) : Exec ℕ) =
        .ok (acc + monthDays d.year m) := by
    intro acc m hm
    have := h.month_le
    rw [fat32DaysInMonth_eq (by omega), Exec.ok_bind]
  have hday := h.day_pos
  have hyears : before (fun y => daysInYear (1970 + y) * 86400) (d.year - 1970) =
      (365 * 10 + 2 + before (fun y => if isLeapYear (1980 + y) then 366 else 365) (d.year - 1980)) * 86400 := by
    have hlater : before (fun i => daysInYear (1970 + ((10 + i : ℕ) : ℤ))) (d.year - 1980) =
        before (fun y => if isLeapYear (1980 + y) then 366 else 365) (d.year - 1980) := by
      apply before_congr
      intro i _
      rw [show (1970 : ℤ) + ((10 + i : ℕ) : ℤ) = 1980 + i by push_cast; ring, daysInYear]
      split_ifs
      · rfl
      · rfl
    have hfirst : before (fun y => daysInYear (1970 + y)) 10 = 365 * 10 + 2 := by decide
    rw [hten, before_mul, before_add, hfirst, hlater]
  refine ⟨before (fun y => if isLeapYear (1980 + y) then 366 else 365) (d.year - 1980) +
    before (monthDays d.year) (d.month - 1) + (d.day - 1), ?_, ?_⟩
  · unfold daysSince1980
    rw [foldlM_range_add 0 fun acc i _ => rfl, Exec.ok_bind, foldlM_range_add _ hmonths, Exec.ok_bind]
    refine congrArg Except.ok ?_
    push_cast
    omega
  · unfold Rtc.seconds Rtc.secondsOfYear Rtc.secondsOfMonth
    rw [hyears, before_mul]
    ring

theorem checkInt_eq (n : ℕ) : checkInt n = if n < 2 ^ 31 then .ok (n : ℤ) else .error .fault := by
  unfold checkInt
  split_ifs
  · rfl
  · omega
  · omega
  · rfl

/-- A check that a later one includes. -/
theorem checkInt_add_bind (a b : ℕ) (f : ℤ → Exec ℕ) :
    (checkInt a >>= fun seconds => checkInt (seconds + b) >>= f) = checkInt (a + b : ℕ) >>= f := by
  rw [checkInt_eq, checkInt_eq]
  by_cases ha : a < 2 ^ 31
  · rw [if_pos ha, Exec.ok_bind, ← Nat.cast_add, checkInt_eq]
  · rw [if_neg ha, if_neg (by omega)]
    rfl

/-- The fields come back from the 16 bits of a date and of a time. -/
theorem Rtc.Valid.decoded {d : Rtc} (h : d.Valid) (hlow : 1980 ≤ d.year) (hhigh : d.year ≤ 2107)
    (heven : d.second % 2 = 0) :
    (d.fatDate >>> 9 &&& 0x7F) + 1980 = d.year ∧ d.fatDate >>> 5 &&& 0x0F = d.month ∧ d.fatDate &&& 0x1F = d.day ∧
      d.fatTime >>> 11 &&& 0x1F = d.hour ∧ d.fatTime >>> 5 &&& 0x3F = d.minute ∧
        (d.fatTime &&& 0x1F) * 2 = d.second := by
  have hand : ∀ n,
      n &&& 0x7F = n % 2 ^ 7 ∧ n &&& 0x3F = n % 2 ^ 6 ∧ n &&& 0x1F = n % 2 ^ 5 ∧ n &&& 0x0F = n % 2 ^ 4 :=
    fun n => ⟨Nat.and_two_pow_sub_one_eq_mod n 7, Nat.and_two_pow_sub_one_eq_mod n 6,
      Nat.and_two_pow_sub_one_eq_mod n 5, Nat.and_two_pow_sub_one_eq_mod n 4⟩
  have hday := h.day_le.trans (monthDays_le d.year (d.month - 1))
  have := h.month_le
  have := h.hour_lt
  have := h.minute_lt
  have := h.second_lt
  simp only [hand, Nat.shiftRight_eq_div_pow]
  unfold Rtc.fatDate Rtc.fatTime
  omega

theorem fat32UnixTime_eq {d : Rtc} (h : d.Valid) (hlow : 1980 ≤ d.year) (hhigh : d.year ≤ 2107)
    (heven : d.second % 2 = 0) :
    fat32UnixTime d.fatDate d.fatTime = if d.seconds < 2 ^ 31 then .ok d.seconds else .error .fault := by
  obtain ⟨hyear, hmonth, hday, hhour, hminute, hsecond⟩ := h.decoded hlow hhigh heven
  obtain ⟨days, hdays, hseconds⟩ := daysSince1980_eq h hlow
  unfold fat32UnixTime
  dsimp only
  rw [hyear, hmonth, hday, hhour, hminute, hsecond, hdays, Exec.ok_bind]
  have hproduct : ((days : ℤ) + (365 * 10 + 2)) * 86400 = ((days + (365 * 10 + 2)) * 86400 : ℕ) := by push_cast; ring
  have hminutes : (d.minute : ℤ) * 60 = (d.minute * 60 : ℕ) := by push_cast; ring
  have hhours : (d.hour : ℤ) * 3600 = (d.hour * 3600 : ℕ) := by push_cast; ring
  have hsum : (days + (365 * 10 + 2)) * 86400 + d.hour * 3600 + d.minute * 60 + d.second = d.seconds := by
    rw [← hseconds, Rtc.secondsOfDay]
    ring
  rw [hproduct, hhours, hminutes, checkInt_add_bind, checkInt_add_bind, checkInt_add_bind, hsum, checkInt_eq]
  split_ifs with hfits
  · rw [Exec.ok_bind, intToSize_of_nonneg (by omega)]
  · rfl

/-! ### Agreement -/

/-- The first second that has no place in an `int`. -/
def intEnd : Rtc := ⟨8, 14, 3, 19, 1, 2038⟩

theorem intEnd_valid : intEnd.Valid where
  month_pos := by decide
  month_le := by decide
  day_pos := by decide
  day_le := by decide
  hour_lt := by decide
  minute_lt := by decide
  second_lt := by decide
  year_lt := by decide

theorem intEnd_seconds : intEnd.seconds = 2 ^ 31 := by
  decide +kernel

theorem Rtc.Valid.seconds_lt_iff {a b : Rtc} (ha : a.Valid) (hb : b.Valid) (hya : 1970 ≤ a.year)
    (hyb : 1970 ≤ b.year) :
    a.seconds < b.seconds ↔ a.fields < b.fields := by
  refine ⟨fun h => ?_, ha.seconds_lt hb hya⟩
  rcases lt_trichotomy a.fields b.fields with hlt | heq | hgt
  · exact hlt
  · have hab : a = b := by
      simp only [Rtc.fields, List.cons.injEq] at heq
      cases a
      cases b
      simp_all
    exact absurd h (by rw [hab]; exact lt_irrefl _)
  · exact absurd (hb.seconds_lt ha hyb hgt) (by omega)

/-- The two calendars agree on a date exactly if its seconds fit into an `int`. -/
theorem agree_iff {d : Rtc} (h : d.Valid) (hlow : 1980 ≤ d.year) (hhigh : d.year ≤ 2107) (heven : d.second % 2 = 0) :
    fat32UnixTime d.fatDate d.fatTime = rtcToUnix d ↔ d.fields < intEnd.fields := by
  rw [fat32UnixTime_eq h hlow hhigh heven, rtcToUnix_eq h (by omega) (by omega),
    ← h.seconds_lt_iff intEnd_valid (by omega) (by decide), intEnd_seconds]
  split_ifs with hfits
  · exact iff_of_true rfl hfits
  · exact iff_of_false (by simp) hfits

/-- The first of January of a year. -/
def newYear (year : ℕ) : Rtc := ⟨0, 0, 0, 1, 1, year⟩

theorem newYear_valid {year : ℕ} (h : year < 2 ^ 32) : (newYear year).Valid where
  month_pos := le_rfl
  month_le := show 1 ≤ 12 by decide
  day_pos := le_rfl
  day_le := by
    show 1 ≤ (daysInMonth (isLeapYear year)).getD 0 0
    cases isLeapYear year with
    | false => decide
    | true => decide
  hour_lt := show 0 < 24 by decide
  minute_lt := show 0 < 60 by decide
  second_lt := show 0 < 60 by decide
  year_lt := h

/-- `rtc_to_unix` is in the order of the dates. -/
def Increasing (last : ℕ) : Prop :=
  ∀ a b : Rtc, a.Valid → b.Valid → 1970 ≤ a.year → b.year ≤ last → a.fields < b.fields →
    ∃ s t, rtcToUnix a = .ok s ∧ rtcToUnix b = .ok t ∧ s < t

/-- A year that is negative as an `int` has no seconds before it. -/
theorem rtcToUnix_newYear {year : ℕ} (h : year < 2 ^ 32) (hlow : 2 ^ 31 ≤ year) :
    rtcToUnix (newYear year) = .ok 0 := by
  have hneg : (wrapInt year - 1970).toNat = 0 := by
    unfold wrapInt
    rw [Int.bmod_def]
    omega
  unfold rtcToUnix newYear
  dsimp only
  rw [hneg]
  simp

theorem increasing_iff {last : ℕ} (h : last < 2 ^ 32) (hlow : 1970 ≤ last) : Increasing last ↔ last < 2 ^ 31 := by
  constructor
  · intro hinc
    by_contra hnot
    have hzero := rtcToUnix_newYear h (by omega)
    have hfields : (newYear 1970).fields < (newYear last).fields := by
      simp only [Rtc.fields, newYear, List.cons_lt_cons_iff]
      omega
    obtain ⟨s, t, -, ht, hlt⟩ :=
      hinc (newYear 1970) (newYear last) (newYear_valid (by omega)) (newYear_valid h) le_rfl le_rfl hfields
    rw [hzero] at ht
    cases ht
    exact absurd hlt (Nat.not_lt_zero s)
  · intro hlast a b ha hb hyear hle hfields
    have hyears : a.year ≤ b.year := by
      rcases List.cons_lt_cons_iff.mp hfields with hlt | ⟨heq, -⟩
      · exact hlt.le
      · exact heq.le
    exact ⟨a.seconds, b.seconds, rtcToUnix_eq ha hyear (by omega), rtcToUnix_eq hb (by omega) (by omega),
      ha.seconds_lt hb hyear hfields⟩

/-- The calendars agree before the first second that has no place in an `int`, and the seconds
are in the order of the dates up to the last year that is positive as an `int`. -/
theorem calendars_agree {d : Rtc} (h : d.Valid) (hlow : 1980 ≤ d.year) (hhigh : d.year ≤ 2107)
    (heven : d.second % 2 = 0) {last : ℕ} (hlast : 1970 ≤ last) (hword : last < 2 ^ 32) :
    (fat32UnixTime d.fatDate d.fatTime = rtcToUnix d ↔ d.fields < intEnd.fields) ∧
      (Increasing last ↔ last < 2 ^ 31) :=
  ⟨agree_iff h hlow hhigh heven, increasing_iff hword hlast⟩

theorem calendars_agree_leap_day :
    fat32UnixTime (Rtc.fatDate ⟨8, 14, 3, 29, 2, 2024⟩) (Rtc.fatTime ⟨8, 14, 3, 29, 2, 2024⟩) =
        rtcToUnix ⟨8, 14, 3, 29, 2, 2024⟩ ∧ Increasing 2107 := by
  have h := calendars_agree (d := ⟨8, 14, 3, 29, 2, 2024⟩) ⟨by decide, by decide, by decide, by decide, by decide,
    by decide, by decide, by decide⟩ (by decide) (by decide) (by decide)
    (show 1970 ≤ 2107 by decide) (by decide)
  exact ⟨h.1.mpr (by decide), h.2.mpr (by decide)⟩

/-- On the nineteenth of January 2038, eight seconds after 03:14, `fat32_unix_time` overflows. -/
theorem fat32UnixTime_overflows : fat32UnixTime intEnd.fatDate intEnd.fatTime ≠ rtcToUnix intEnd :=
  fun h => lt_irrefl intEnd.fields ((agree_iff intEnd_valid (by decide) (by decide) (by decide)).mp h)

end DualFuse.Drivers
