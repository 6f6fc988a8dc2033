import Mathlib.Tactic
import DualFuse.Library.Decimal

/-! The numbers of the calculators: `atoi` of `utility/shell.cpp`, `u64toa` of `GUI/GUI.cpp`, and
the arithmetic of `int`, which is undefined where a result is out of range. Beside it stands the
same arithmetic without a range. -/

namespace DualFuse.Utility.Numbers

open Library Library.CString Library.Decimal

/-- The bytes of a text of the source. -/
def bytes (s : String) : List (BitVec 8) := s.toList.map fun c => BitVec.ofNat 8 c.toNat

def minus : BitVec 8 := 45

local instance byteLawfulBEq : LawfulBEq (BitVec 8) := inferInstance

/-- The string at the start of a buffer. -/
def stringAt (buf : List (BitVec 8)) : Exec (List (BitVec 8)) :=
  if 0 ∈ buf then .ok (content buf) else .error .fault

theorem stringAt_eq {buf str : List (BitVec 8)} (h : Holds buf str) : stringAt buf = .ok str := by
  rw [stringAt, if_pos h.mem, h.content_eq]

/-! ### Integers in range -/

def InInt (x : ℤ) : Prop := -2147483648 ≤ x ∧ x < 2147483648

instance (x : ℤ) : Decidable (InInt x) := inferInstanceAs (Decidable (_ ∧ _))

/-- A number whose digits alone are in range too. -/
def Readable (x : ℤ) : Prop := -2147483648 < x ∧ x < 2147483648

instance (x : ℤ) : Decidable (Readable x) := inferInstanceAs (Decidable (_ ∧ _))

theorem Readable.inInt {x : ℤ} (h : Readable x) : InInt x := ⟨h.1.le, h.2⟩

/-- The result of a signed operation. -/
def int (x : ℤ) : Exec ℤ := if InInt x then .ok x else .error .fault

theorem int_of_inInt {x : ℤ} (h : InInt x) : int x = .ok x := if_pos h

theorem int_of_not_inInt {x : ℤ} (h : ¬ InInt x) : int x = .error .fault := if_neg h

/-! ### Reading -/

def atoiDigits (result : ℤ) : List (BitVec 8) → Exec ℤ
  | [] => .ok result
  | c :: s =>
    if isDigit c then do
      let tens ← int (result * 10)
      let result ← int (tens + digitValue c)
      atoiDigits result s
    else .ok result

def atoi (s : List (BitVec 8)) : Exec ℤ := do
  let sign : ℤ := if s.head? = some minus then -1 else 1
  let result ← atoiDigits 0 (if s.head? = some minus then s.tail else s)
  int (sign * result)

/-- The number that a string stands for. -/
def literal (s : List (BitVec 8)) : ℤ := if s.head? = some minus then -(value s.tail : ℤ) else value s

theorem atoiDigits_eq (s : List (BitVec 8)) {m : ℕ} (hm : m < 2147483648) :
    atoiDigits m s = if valueFrom m (s.takeWhile isDigit) < 2147483648 then
      .ok (valueFrom m (s.takeWhile isDigit) : ℤ) else .error .fault := by
  induction s generalizing m with
  | nil => exact (if_pos hm).symm
  | cons c s ih =>
    unfold atoiDigits
    by_cases hc : isDigit c = true
    · rw [if_pos hc, List.takeWhile_cons_of_pos hc]
      have hvalue : valueFrom m (c :: s.takeWhile isDigit) =
          valueFrom (10 * m + digitValue c) (s.takeWhile isDigit) := rfl
      have hle := le_valueFrom (10 * m + digitValue c) (s.takeWhile isDigit)
      rw [hvalue]
      by_cases hnext : 10 * m + digitValue c < 2147483648
      · rw [int_of_inInt ⟨by omega, by omega⟩, Exec.ok_bind, int_of_inInt ⟨by omega, by omega⟩, Exec.ok_bind]
        have hcast : (m : ℤ) * 10 + digitValue c = ((10 * m + digitValue c : ℕ) : ℤ) := by
          push_cast
          omega
        rw [hcast, ih hnext]
      · rw [if_neg (by omega)]
        by_cases htens : InInt ((m : ℤ) * 10)
        · rw [int_of_inInt htens, Exec.ok_bind, int_of_not_inInt (fun h => hnext (by have := h.2; omega))]
          rfl
        · rw [int_of_not_inInt htens]
          rfl
    · rw [if_neg hc, List.takeWhile_cons_of_neg hc]
      exact (if_pos hm).symm

/-- The digits of a number are summed up before its sign is looked at. -/
theorem atoi_eq (s : List (BitVec 8)) :
    atoi s = if Readable (literal s) then .ok (literal s) else .error .fault := by
  have hdigits := fun t => atoiDigits_eq t (by omega : 0 < 2147483648)
  unfold atoi literal value
  by_cases hminus : s.head? = some minus
  · rw [if_pos hminus, if_pos hminus, if_pos hminus]
    have h := hdigits s.tail
    rw [Nat.cast_zero] at h
    rw [h]
    generalize valueFrom 0 (s.tail.takeWhile isDigit) = v
    by_cases hv : v < 2147483648
    · rw [if_pos hv, Exec.ok_bind, if_pos ⟨by omega, by omega⟩, int_of_inInt ⟨by omega, by omega⟩]
      congr 1
      omega
    · rw [if_neg hv, if_neg (fun h => hv (by have := h.1; omega))]
      rfl
  · rw [if_neg hminus, if_neg hminus, if_neg hminus]
    have h := hdigits s
    rw [Nat.cast_zero] at h
    rw [h]
    generalize valueFrom 0 (s.takeWhile isDigit) = v
    by_cases hv : v < 2147483648
    · rw [if_pos hv, Exec.ok_bind, if_pos ⟨by omega, by omega⟩, int_of_inInt ⟨by omega, by omega⟩]
      congr 1
      omega
    · rw [if_neg hv, if_neg (fun h => hv (by have := h.2; omega))]
      rfl

/-! ### Writing -/

def digits : List (BitVec 8) := bytes "0123456789abcdefghijklmnopqrstuvwxyz"

def digitAt (d : ℕ) : BitVec 8 := digits.getD d 0

/-- `reverse_string`. -/
def reverseString (str : List (BitVec 8)) (len : ℕ) : List (BitVec 8) := (str.take len).reverse ++ str.drop len

/-- The loop of `u64toa`: the buffer and the number of digits. -/
def u64toaDigits (base : ℕ) (hbase : 2 ≤ base) (value : ℕ) (str : List (BitVec 8)) (i : ℕ) :
    Exec (List (BitVec 8) × ℕ) :=
  if _hpos : 0 < value then do
    let str ← setAt str i (digitAt (value % base))
    u64toaDigits base hbase (value / base) str (i + 1)
  else .ok (str, i)
termination_by value
decreasing_by exact Nat.div_lt_self _hpos hbase

def u64toa (value : ℕ) (str : List (BitVec 8)) (base : ℕ) : Exec (List (BitVec 8)) :=
  if hbase : 2 ≤ base ∧ base ≤ 36 then
    if value = 0 then do
      let str ← setAt str 0 48
      setAt str 1 0
    else do
      let (str, i) ← u64toaDigits base hbase.1 value str 0
      let str ← setAt str i 0
      .ok (reverseString str i)
  else .ok str

def itoaSigned (value : ℤ) (buf : List (BitVec 8)) (base : ℕ) : Exec (List (BitVec 8)) :=
  if value < 0 then do
    let buf ← setAt buf 0 minus
    let rest ← u64toa (-value).toNat (buf.drop 1) base
    .ok (buf.take 1 ++ rest)
  else u64toa value.toNat buf base

/-- The text of a number. -/
def text (x : ℤ) : List (BitVec 8) := if x < 0 then minus :: numeral (-x).toNat else numeral x.toNat

theorem digitAt_of_lt {d : ℕ} (hd : d < 10) : digitAt d = digitChar d := by
  interval_cases d <;> rfl

theorem setAt_append (pre tail : List (BitVec 8)) (b a : BitVec 8) :
    setAt (pre ++ b :: tail) pre.length a = .ok (pre ++ a :: tail) := by
  rw [setAt, if_pos (by simp), List.set_append_right _ _ le_rfl, Nat.sub_self]
  rfl

/-- The digits are put behind each other, the last one first. -/
theorem u64toaDigits_eq (hbase : 2 ≤ 10) (value : ℕ) (pre tail : List (BitVec 8))
    (hfits : (Nat.digits 10 value).length ≤ tail.length) :
    u64toaDigits 10 hbase value (pre ++ tail) pre.length =
      .ok (pre ++ (Nat.digits 10 value).map digitChar ++ tail.drop (Nat.digits 10 value).length,
        pre.length + (Nat.digits 10 value).length) := by
  induction value using Nat.strong_induction_on generalizing pre tail with
  | _ value ih =>
    rw [u64toaDigits]
    by_cases hpos : 0 < value
    · have hdigits := Nat.digits_def' (by omega : 1 < 10) hpos
      rw [hdigits, List.length_cons] at hfits
      cases tail with
      | nil => simp at hfits
      | cons b tail =>
        rw [dif_pos hpos, digitAt_of_lt (Nat.mod_lt value (by omega)), setAt_append, Exec.ok_bind]
        have hsnoc : pre ++ digitChar (value % 10) :: tail = (pre ++ [digitChar (value % 10)]) ++ tail := by simp
        have hlength : pre.length + 1 = (pre ++ [digitChar (value % 10)]).length := by simp
        rw [hsnoc, hlength, ih (value / 10) (by omega) _ _ (Nat.le_of_succ_le_succ hfits), hdigits]
        simp only [List.length_cons, List.drop_succ_cons, List.length_append, List.length_nil, List.map_cons,
          List.append_assoc, List.cons_append, List.nil_append, Nat.zero_add, Nat.add_assoc,
          Nat.add_comm 1 (Nat.digits 10 (value / 10)).length]
    · obtain rfl : value = 0 := by omega
      rw [dif_neg hpos]
      simp

theorem u64toa_holds {value : ℕ} {str : List (BitVec 8)} (hfits : (numeral value).length < str.length) :
    ∃ str', u64toa value str 10 = .ok str' ∧ Holds str' (numeral value) ∧ str'.length = str.length := by
  unfold u64toa
  rw [dif_pos (by decide)]
  by_cases hzero : value = 0
  · subst hzero
    rw [if_pos rfl]
    match str, hfits with
    | b :: c :: rest, _ => exact ⟨digitChar 0 :: 0 :: rest, rfl, ⟨zero_not_mem_numeral 0, rest, rfl⟩, rfl⟩
  · have hnumeral : numeral value = (Nat.digits 10 value).reverse.map digitChar := if_neg hzero
    have hlength : (numeral value).length = (Nat.digits 10 value).length := by
      rw [hnumeral, List.length_map, List.length_reverse]
    rw [hlength] at hfits
    have hloop := u64toaDigits_eq (by omega) value [] str hfits.le
    rw [List.nil_append, List.nil_append, List.length_nil, Nat.zero_add] at hloop
    rw [if_neg hzero, hloop, Exec.ok_bind]
    generalize hds : (Nat.digits 10 value).map digitChar = ds at *
    obtain ⟨b, rest, hrest⟩ : ∃ b rest, str.drop (Nat.digits 10 value).length = b :: rest := by
      apply List.exists_cons_of_length_pos
      rw [List.length_drop]
      omega
    have hdsLength : ds.length = (Nat.digits 10 value).length := by rw [← hds, List.length_map]
    dsimp only
    rw [hrest, ← hdsLength, setAt_append, Exec.ok_bind]
    have hreverse : numeral value = ds.reverse := by rw [hnumeral, ← hds, List.map_reverse]
    refine ⟨_, rfl, ⟨zero_not_mem_numeral value, rest, ?_⟩, ?_⟩
    · rw [reverseString, List.take_left, List.drop_left, hreverse]
    · have htotal := congrArg List.length hrest
      rw [List.length_drop, List.length_cons] at htotal
      simp only [reverseString, List.take_left, List.drop_left, List.length_append, List.length_reverse,
        List.length_cons]
      omega

theorem length_text_le {x : ℤ} (h : InInt x) : (text x).length ≤ 11 := by
  obtain ⟨hlo, hhi⟩ := h
  unfold text
  split_ifs with hneg
  · have hlength := (length_numeral_le_iff (n := (-x).toNat) (by omega : 0 < 10)).mpr (by omega)
    rw [List.length_cons]
    omega
  · have hlength := (length_numeral_le_iff (n := x.toNat) (by omega : 0 < 10)).mpr (by omega)
    omega

/-- What is written is read back. -/
theorem literal_text (x : ℤ) : literal (text x) = x := by
  unfold literal text
  split_ifs with hneg hminus hminus
  · rw [List.tail_cons, value_numeral]
    omega
  · exact absurd rfl hminus
  · have hdigit := numeral_digits x.toNat minus (List.mem_of_mem_head? hminus)
    cases hdigit
  · rw [value_numeral]
    omega

theorem atoi_text (x : ℤ) : atoi (text x) = if Readable x then .ok x else .error .fault := by
  rw [atoi_eq, literal_text]

theorem itoaSigned_holds {x : ℤ} {buf : List (BitVec 8)} (hfits : (text x).length < buf.length) :
    ∃ buf', itoaSigned x buf 10 = .ok buf' ∧ Holds buf' (text x) ∧ buf'.length = buf.length := by
  unfold itoaSigned
  unfold text at hfits ⊢
  by_cases hneg : x < 0
  · rw [if_pos hneg, List.length_cons] at hfits
    match buf, hfits with
    | b :: rest, hfits =>
      obtain ⟨rest', hrest, ⟨hzero, tail, hheld⟩, hlength⟩ := u64toa_holds (Nat.lt_of_succ_lt_succ hfits)
      have hset : setAt (b :: rest) 0 minus = .ok (minus :: rest) := if_pos (Nat.succ_pos _)
      have hdrop : (minus :: rest).drop 1 = rest := rfl
      rw [if_pos hneg, if_pos hneg, hset, Exec.ok_bind, hdrop, hrest, Exec.ok_bind]
      refine ⟨minus :: rest', rfl, ⟨?_, tail, ?_⟩, ?_⟩
      · intro hmem
        rcases List.mem_cons.mp hmem with hminus | hmem
        · cases hminus
        · exact hzero hmem
      · rw [hheld, List.cons_append]
      · rw [List.length_cons, hlength, List.length_cons]
  · rw [if_neg hneg] at hfits
    rw [if_neg hneg, if_neg hneg]
    exact u64toa_holds hfits

/-! ### Operators -/

def plus : BitVec 8 := 43

def times : BitVec 8 := 42

def slash : BitVec 8 := 47

def percent : BitVec 8 := 37

def IsOperator (c : BitVec 8) : Prop := c = plus ∨ c = minus ∨ c = times ∨ c = slash ∨ c = percent

instance (c : BitVec 8) : Decidable (IsOperator c) := inferInstanceAs (Decidable (_ ∨ _))

def IsDivision (c : BitVec 8) : Prop := c = slash ∨ c = percent

instance (c : BitVec 8) : Decidable (IsDivision c) := inferInstanceAs (Decidable (_ ∨ _))

/-- The value of an operation on integers without a range. -/
def combine (op : BitVec 8) (a b : ℤ) : ℤ :=
  if op = plus then a + b
  else if op = minus then a - b
  else if op = times then a * b
  else if op = slash then a.tdiv b
  else if op = percent then a.tmod b
  else b

/-- The number that has to be in range: a remainder is defined where the quotient is. -/
def reach (op : BitVec 8) (a b : ℤ) : ℤ := if op = percent then a.tdiv b else combine op a b

/-- An operation as it should be: nothing comes of a divisor of zero, nor of a number out of range. -/
def evaluate (op : BitVec 8) (a b : ℤ) : Option ℤ :=
  if IsDivision op ∧ b = 0 then none else if InInt b ∧ InInt (reach op a b) then some (combine op a b) else none

/-- Where the operation of the code is defined: the operand can be read, and the result is in range or
is not asked for. -/
def Defined (op : BitVec 8) (a b : ℤ) : Prop := Readable b ∧ (IsDivision op ∧ b = 0 ∨ InInt (reach op a b))

instance (op : BitVec 8) (a b : ℤ) : Decidable (Defined op a b) := inferInstanceAs (Decidable (_ ∧ _))

theorem evaluate_inInt {op : BitVec 8} {a b r : ℤ} (h : evaluate op a b = some r) : InInt r := by
  unfold evaluate at h
  split_ifs at h with hzero hrange
  cases h
  by_cases hop : op = percent
  · subst hop
    have hb : b ≠ 0 := fun hb => hzero ⟨.inr rfl, hb⟩
    have habs : (a.tmod b).natAbs < b.natAbs := by
      rw [Int.natAbs_tmod]
      exact Nat.mod_lt _ (by omega)
    have hmod : combine percent a b = a.tmod b := rfl
    obtain ⟨hlo, hhi⟩ := hrange.1
    rw [hmod]
    constructor <;> omega
  · have hreach := hrange.2
    rwa [reach, if_neg hop] at hreach

end DualFuse.Utility.Numbers
