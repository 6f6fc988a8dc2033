import Mathlib.Tactic

/-! Bytes at places of a store, and numbers in little endian order. Lists of bytes are
read from and written to a place; what is written is read back, and elsewhere nothing
changes. -/

namespace DualFuse.Library.Bytes

/-- The `n` bytes from place `o` on. -/
def read (b : ℕ → BitVec 8) (o n : ℕ) : List (BitVec 8) := (List.range n).map fun i => b (o + i)

/-- The bytes of `l` from place `o` on. -/
def write (b : ℕ → BitVec 8) (o : ℕ) (l : List (BitVec 8)) : ℕ → BitVec 8 :=
  fun i => if o ≤ i then l.getD (i - o) (b i) else b i

variable {b b' : ℕ → BitVec 8} {o n i : ℕ} {l : List (BitVec 8)}

@[simp] theorem length_read : (read b o n).length = n := by simp [read]

theorem read_congr (h : ∀ i, o ≤ i → i < o + n → b' i = b i) : read b' o n = read b o n := by
  refine List.map_congr_left fun i hi => h (o + i) (by omega) ?_
  have := List.mem_range.mp hi
  omega

theorem read_eq_read_iff {p : ℕ} : read b o n = read b' p n ↔ ∀ i < n, b (o + i) = b' (p + i) := by
  unfold read
  rw [List.map_inj_left]
  exact forall_congr' fun i => by rw [List.mem_range]

theorem read_append (b : ℕ → BitVec 8) (o n m : ℕ) : read b o n ++ read b (o + n) m = read b o (n + m) := by
  unfold read
  rw [List.range_add, List.map_append, List.map_map]
  congr 1
  refine List.map_congr_left fun i _ => ?_
  rw [Function.comp_apply, Nat.add_assoc]

/-- A part of what is read is read from its own place. -/
theorem take_drop_read {m d : ℕ} (h : d + m ≤ n) : ((read b o n).drop d).take m = read b (o + d) m := by
  refine List.ext_getElem (by simp; omega) fun i h₁ h₂ => ?_
  simp [read, Nat.add_assoc]

theorem write_of_lt (h : i < o) : write b o l i = b i := by rw [write, if_neg (by omega)]

theorem write_of_ge (h : o + l.length ≤ i) : write b o l i = b i := by
  rw [write]
  split_ifs
  · rw [List.getD_eq_getElem?_getD, List.getElem?_eq_none (by omega), Option.getD_none]
  · rfl

theorem write_inside (h : i < l.length) : write b o l (o + i) = l[i] := by
  rw [write, if_pos (by omega), Nat.add_sub_cancel_left, List.getD_eq_getElem?_getD, List.getElem?_eq_getElem h,
    Option.getD_some]

theorem read_write : read (write b o l) o l.length = l := by
  refine List.ext_getElem length_read fun i h₁ h₂ => ?_
  simp only [read, List.getElem_map, List.getElem_range]
  exact write_inside h₂

theorem read_write_of_disjoint {p : ℕ} (h : p + n ≤ o ∨ o + l.length ≤ p) :
    read (write b o l) p n = read b p n := by
  refine read_congr fun i hlo hhi => ?_
  rcases h with h | h
  · exact write_of_lt (by omega)
  · exact write_of_ge (by omega)

theorem write_apply (h : o ≤ i) : write b o l i = l.getD (i - o) (b i) := if_pos h

/-- A window is read, a part of it is replaced, and it is written back. -/
theorem write_patched {r n : ℕ} (h : r + l.length ≤ n) :
    write b o ((read b o n).take r ++ l ++ (read b o n).drop (r + l.length)) = write b (o + r) l := by
  funext i
  rcases Nat.lt_or_ge i o with hlt | hge
  · rw [write_of_lt hlt, write_of_lt (by omega)]
  obtain ⟨k, rfl⟩ := Nat.exists_eq_add_of_le hge
  have hread : ∀ j < n, (read b o n)[j]? = some (b (o + j)) := fun j hj => by simp [read, hj]
  have htake : ((read b o n).take r).length = r := by rw [List.length_take, length_read]; omega
  rw [write_apply hge, Nat.add_sub_cancel_left, List.getD_eq_getElem?_getD, List.append_assoc]
  rcases Nat.lt_or_ge k r with hhead | hrest
  · rw [List.getElem?_append_left (by omega), List.getElem?_take_of_lt hhead, hread k (by omega), Option.getD_some,
      write_of_lt (by omega)]
  rw [List.getElem?_append_right (by omega), htake]
  rcases Nat.lt_or_ge (k - r) l.length with hin | htail
  · rw [List.getElem?_append_left hin, write_apply (by omega), List.getD_eq_getElem?_getD,
      show o + k - (o + r) = k - r by omega]
  · rw [List.getElem?_append_right htail, List.getElem?_drop, show r + l.length + (k - r - l.length) = k by omega,
      write_of_ge (by omega)]
    rcases Nat.lt_or_ge k n with hk | hk
    · rw [hread k hk, Option.getD_some]
    · rw [List.getElem?_eq_none (by rw [length_read]; exact hk), Option.getD_none]

/-! ### Numbers -/

/-- The `n` lowest bytes of a number, the lowest first. -/
def ofNat : ℕ → ℕ → List (BitVec 8)
  | 0, _ => []
  | n + 1, v => BitVec.ofNat 8 v :: ofNat n (v / 256)

def toNat : List (BitVec 8) → ℕ
  | [] => 0
  | x :: l => x.toNat + 256 * toNat l

@[simp] theorem length_ofNat (n v : ℕ) : (ofNat n v).length = n := by
  induction n generalizing v with
  | zero => rfl
  | succ n ih => rw [ofNat, List.length_cons, ih]

theorem toNat_ofNat (n v : ℕ) : toNat (ofNat n v) = v % 256 ^ n := by
  induction n generalizing v with
  | zero => rw [ofNat, toNat, Nat.pow_zero, Nat.mod_one]
  | succ n ih =>
    rw [ofNat, toNat, ih, BitVec.toNat_ofNat, pow_succ' 256 n, Nat.mod_mul]

/-- Low bytes in front of high ones. -/
theorem ofNat_add (n m v : ℕ) : ofNat (n + m) v = ofNat n v ++ ofNat m (v / 256 ^ n) := by
  induction n generalizing v with
  | zero => rw [Nat.zero_add, ofNat, Nat.pow_zero, Nat.div_one, List.nil_append]
  | succ n ih => rw [Nat.succ_add, ofNat, ofNat, ih, Nat.div_div_eq_div_mul, ← Nat.pow_succ', List.cons_append]

theorem ofNat_mod (n v : ℕ) : ofNat n (v % 256 ^ n) = ofNat n v := by
  induction n generalizing v with
  | zero => rfl
  | succ n ih =>
    have hlow : BitVec.ofNat 8 (v % 256 ^ (n + 1)) = BitVec.ofNat 8 v := by
      apply BitVec.eq_of_toNat_eq
      rw [BitVec.toNat_ofNat, BitVec.toNat_ofNat, Nat.pow_succ', Nat.mod_mul_right_mod]
    rw [ofNat, ofNat, hlow, Nat.pow_succ', Nat.mod_mul_right_div_self, ih]

theorem toNat_lt (l : List (BitVec 8)) : toNat l < 256 ^ l.length := by
  induction l with
  | nil => exact Nat.one_pos
  | cons x l ih =>
    rw [toNat, List.length_cons, Nat.pow_succ]
    have := x.isLt
    omega

/-- The number of `n` bytes at a place. -/
def readNat (b : ℕ → BitVec 8) (o n : ℕ) : ℕ := toNat (read b o n)

def writeNat (b : ℕ → BitVec 8) (o n v : ℕ) : ℕ → BitVec 8 := write b o (ofNat n v)

theorem readNat_lt : readNat b o n < 256 ^ n := by
  have := toNat_lt (read b o n)
  rwa [length_read] at this

theorem readNat_congr (h : ∀ i, o ≤ i → i < o + n → b' i = b i) : readNat b' o n = readNat b o n := by
  rw [readNat, read_congr h, readNat]

theorem readNat_writeNat (b : ℕ → BitVec 8) (o n v : ℕ) : readNat (writeNat b o n v) o n = v % 256 ^ n := by
  have h := read_write (b := b) (o := o) (l := ofNat n v)
  rw [length_ofNat] at h
  rw [readNat, writeNat, h, toNat_ofNat]

theorem writeNat_of_outside {v : ℕ} (h : i < o ∨ o + n ≤ i) : writeNat b o n v i = b i := by
  rcases h with h | h
  · exact write_of_lt h
  · exact write_of_ge (by rw [length_ofNat]; exact h)

end DualFuse.Library.Bytes
