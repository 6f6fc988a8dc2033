import DualFuse.Library.BlockStream
import DualFuse.Library.Bytes
import DualFuse.Library.CString
import DualFuse.Library.Loop

/-! MD5 (`utility/md5.cpp`). The context keeps the four words of the state, the length in two
counters and the bytes that do not fill a block yet. Words are read from the data directly, so the
field `block` is left out. What the calls compute is compared with the digest of RFC 1321, which
pads the whole message first. -/

namespace DualFuse.Utility.Md5

open Library Library.CString Library.BlockStream

abbrev Byte := BitVec 8

abbrev Word := BitVec 32

@[ext] structure MD5Out where
  a : Word
  b : Word
  c : Word
  d : Word
  deriving DecidableEq, Repr

structure MD5Ctx extends MD5Out where
  lo : ℕ
  hi : ℕ
  buffer : List Byte
  deriving DecidableEq, Repr

/-! ### The transformation -/

/-- The functions of the four rounds; the third has two that differ in the order only. -/
inductive Basic where
  | f | g | h | h2 | i
  deriving DecidableEq, Repr

def Basic.apply (x y z : Word) : Basic → Word
  | .f => z ^^^ (x &&& (y ^^^ z))
  | .g => y ^^^ (z &&& (x ^^^ y))
  | .h => x ^^^ y ^^^ z
  | .h2 => x ^^^ (y ^^^ z)
  | .i => y ^^^ (x ||| ~~~z)

/-- The word `n` of a block. -/
def get (block : List Byte) (n : ℕ) : Word := BitVec.ofNat 32 (Bytes.toNat ((block.drop (n * 4)).take 4))

/-- `STEP(f, a, b, c, d, x, t, s)`, after which the next step has the names one place further. -/
def step (block : List Byte) (r : MD5Out) : Basic × ℕ × Word × ℕ → MD5Out
  | (fn, n, t, s) =>
    let a := r.a + (fn.apply r.b r.c r.d + get block n + t)
    let a := (a <<< s) ||| (a >>> (32 - s))
    ⟨r.d, a + r.b, r.b, r.c⟩

def steps : List (Basic × ℕ × Word × ℕ) := [
  (.f, 0, 0xd76aa478, 7), (.f, 1, 0xe8c7b756, 12), (.f, 2, 0x242070db, 17), (.f, 3, 0xc1bdceee, 22),
  (.f, 4, 0xf57c0faf, 7), (.f, 5, 0x4787c62a, 12), (.f, 6, 0xa8304613, 17), (.f, 7, 0xfd469501, 22),
  (.f, 8, 0x698098d8, 7), (.f, 9, 0x8b44f7af, 12), (.f, 10, 0xffff5bb1, 17), (.f, 11, 0x895cd7be, 22),
  (.f, 12, 0x6b901122, 7), (.f, 13, 0xfd987193, 12), (.f, 14, 0xa679438e, 17), (.f, 15, 0x49b40821, 22),
  (.g, 1, 0xf61e2562, 5), (.g, 6, 0xc040b340, 9), (.g, 11, 0x265e5a51, 14), (.g, 0, 0xe9b6c7aa, 20),
  (.g, 5, 0xd62f105d, 5), (.g, 10, 0x02441453, 9), (.g, 15, 0xd8a1e681, 14), (.g, 4, 0xe7d3fbc8, 20),
  (.g, 9, 0x21e1cde6, 5), (.g, 14, 0xc33707d6, 9), (.g, 3, 0xf4d50d87, 14), (.g, 8, 0x455a14ed, 20),
  (.g, 13, 0xa9e3e905, 5), (.g, 2, 0xfcefa3f8, 9), (.g, 7, 0x676f02d9, 14), (.g, 12, 0x8d2a4c8a, 20),
  (.h, 5, 0xfffa3942, 4), (.h2, 8, 0x8771f681, 11), (.h, 11, 0x6d9d6122, 16), (.h2, 14, 0xfde5380c, 23),
  (.h, 1, 0xa4beea44, 4), (.h2, 4, 0x4bdecfa9, 11), (.h, 7, 0xf6bb4b60, 16), (.h2, 10, 0xbebfbc70, 23),
  (.h, 13, 0x289b7ec6, 4), (.h2, 0, 0xeaa127fa, 11), (.h, 3, 0xd4ef3085, 16), (.h2, 6, 0x04881d05, 23),
  (.h, 9, 0xd9d4d039, 4), (.h2, 12, 0xe6db99e5, 11), (.h, 15, 0x1fa27cf8, 16), (.h2, 2, 0xc4ac5665, 23),
  (.i, 0, 0xf4292244, 6), (.i, 7, 0x432aff97, 10), (.i, 14, 0xab9423a7, 15), (.i, 5, 0xfc93a039, 21),
  (.i, 12, 0x655b59c3, 6), (.i, 3, 0x8f0ccc92, 10), (.i, 10, 0xffeff47d, 15), (.i, 1, 0x85845dd1, 21),
  (.i, 8, 0x6fa87e4f, 6), (.i, 15, 0xfe2ce6e0, 10), (.i, 6, 0xa3014314, 15), (.i, 13, 0x4e0811a1, 21),
  (.i, 4, 0xf7537e82, 6), (.i, 11, 0xbd3af235, 10), (.i, 2, 0x2ad7d2bb, 15), (.i, 9, 0xeb86d391, 21)]

def MD5Out.add (r saved : MD5Out) : MD5Out := ⟨r.a + saved.a, r.b + saved.b, r.c + saved.c, r.d + saved.d⟩

/-- What one turn of the loop in `body` does with the state. -/
def transform (saved : MD5Out) (block : List Byte) : MD5Out := (steps.foldl (step block) saved).add saved

/-- One turn of the loop, which ends where `size -= 64` comes to zero. -/
def bodyRound : MD5Out × List Byte × ℕ → Exec (Loop.Round (MD5Out × List Byte × ℕ) (MD5Out × List Byte))
  | (r, ptr, size) =>
    if ptr.length < 64 then .error .fault
    else if (size + (2 ^ 64 - 64)) % 2 ^ 64 = 0 then .ok (.done (transform r (ptr.take 64), ptr.drop 64))
    else .ok (.next (transform r (ptr.take 64), ptr.drop 64, (size + (2 ^ 64 - 64)) % 2 ^ 64))

/-- `body(ctx, data, size)`, with the context and the pointer that it returns. A loop that does not
come to zero runs out of the data. -/
def body (ctx : MD5Ctx) (data : List Byte) (size : ℕ) : Exec (MD5Ctx × List Byte) := do
  match ← Loop.run bodyRound (data.length / 64 + 1) (ctx.toMD5Out, data, size) with
  | some (r, ptr) => .ok ({ ctx with toMD5Out := r }, ptr)
  | none => .error .fault

/-! ### The calls -/

/-- The buffer is not initialised. -/
def md5Init (buffer : List Byte) : MD5Ctx where
  a := 0x67452301
  b := 0xefcdab89
  c := 0x98badcfe
  d := 0x10325476
  lo := 0
  hi := 0
  buffer := buffer

/-- The counters after `size` more bytes; `hi` counts the carries of the 29 bits of `lo`. -/
def count (ctx : MD5Ctx) (size : ℕ) : MD5Ctx :=
  let lo := (ctx.lo + size) % 2 ^ 64 &&& 0x1fffffff
  let hi := if lo < ctx.lo then (ctx.hi + 1) % 2 ^ 32 else ctx.hi
  { ctx with lo := lo, hi := (hi + size >>> 29) % 2 ^ 32 }

/-- The whole blocks of the data, and the copy of the rest to the front of the buffer. -/
def takeBlocks (ctx : MD5Ctx) (data : List Byte) (size : ℕ) : Exec MD5Ctx :=
  if 64 ≤ size then do
    let (ctx, data) ← body ctx data (size &&& (2 ^ 64 - 64))
    let buffer ← memcpy ctx.buffer 0 data 0 (size &&& 0x3f)
    .ok { ctx with buffer := buffer }
  else do
    let buffer ← memcpy ctx.buffer 0 data 0 size
    .ok { ctx with buffer := buffer }

def md5Update (ctx : MD5Ctx) (data : List Byte) : Exec MD5Ctx :=
  let size := data.length
  let used := ctx.lo &&& 0x3f
  let ctx := count ctx size
  if used = 0 then takeBlocks ctx data size
  else if size < 64 - used then do
    let buffer ← memcpy ctx.buffer used data 0 size
    .ok { ctx with buffer := buffer }
  else do
    let buffer ← memcpy ctx.buffer used data 0 (64 - used)
    let (ctx, _) ← body { ctx with buffer := buffer } buffer 64
    takeBlocks ctx (data.drop (64 - used)) (size - (64 - used))

/-- `memset(&buffer[off], 0, n)`. -/
def clear (ctx : MD5Ctx) (off n : ℕ) : Exec MD5Ctx := do
  let buffer ← memcpy ctx.buffer off (List.replicate n 0) 0 n
  .ok { ctx with buffer := buffer }

/-- `OUT(&buffer[off], src)`. -/
def out (ctx : MD5Ctx) (off src : ℕ) : Exec MD5Ctx := do
  let buffer ← memcpy ctx.buffer off (Bytes.ofNat 4 src) 0 4
  .ok { ctx with buffer := buffer }

/-- The part of `MD5_Final` that makes room for the counters: the place behind the `0x80`, or zero
where a further block was needed. -/
def makeRoom (ctx : MD5Ctx) (used : ℕ) : Exec (MD5Ctx × ℕ) :=
  if 64 - used < 8 then do
    let ctx ← clear ctx used (64 - used)
    let (ctx, _) ← body ctx ctx.buffer 64
    .ok (ctx, 0)
  else .ok (ctx, used)

/-- The rest of `MD5_Final`: the length in bits behind zeros, and the last block. -/
def lastBlock (ctx : MD5Ctx) (used : ℕ) : Exec MD5Ctx := do
  let ctx ← clear ctx used (64 - used - 8)
  let ctx := { ctx with lo := ctx.lo <<< 3 % 2 ^ 32 }
  let ctx ← out ctx 56 ctx.lo
  let ctx ← out ctx 60 ctx.hi
  let (ctx, _) ← body ctx ctx.buffer 64
  .ok ctx

def MD5Out.bytes (r : MD5Out) : List Byte :=
  Bytes.ofNat 4 r.a.toNat ++ Bytes.ofNat 4 r.b.toNat ++ Bytes.ofNat 4 r.c.toNat ++ Bytes.ofNat 4 r.d.toNat

/-- `MD5_Final` gives the result and leaves the context zero. -/
def md5Final (ctx : MD5Ctx) : Exec (List Byte × MD5Ctx) := do
  let used := ctx.lo &&& 0x3f
  let buffer ← setAt ctx.buffer used 0x80
  let (ctx, used) ← makeRoom { ctx with buffer := buffer } (used + 1)
  let ctx ← lastBlock ctx used
  .ok (ctx.toMD5Out.bytes, ⟨⟨0, 0, 0, 0⟩, 0, 0, List.replicate 64 0⟩)

/-- A message given in pieces. -/
def digestOf (buffer : List Byte) (chunks : List (List Byte)) : Exec (List Byte × MD5Ctx) := do
  md5Final (← run md5Update (md5Init buffer) chunks)

/-! ### The digest of a message -/

/-- The functions of RFC 1321, by round. -/
def rfcFunction (x y z : Word) : ℕ → Word
  | 0 => (x &&& y) ||| (~~~x &&& z)
  | 1 => (x &&& z) ||| (y &&& ~~~z)
  | 2 => x ^^^ y ^^^ z
  | _ => y ^^^ (x ||| ~~~z)

/-- The word that step `i` reads. -/
def rfcIndex (i : ℕ) : ℕ :=
  match i / 16 with
  | 0 => i % 16
  | 1 => (5 * i + 1) % 16
  | 2 => (3 * i + 5) % 16
  | _ => 7 * i % 16

def rfcShift (i : ℕ) : ℕ :=
  match i / 16 with
  | 0 => [7, 12, 17, 22].getD (i % 4) 0
  | 1 => [5, 9, 14, 20].getD (i % 4) 0
  | 2 => [4, 11, 16, 23].getD (i % 4) 0
  | _ => [6, 10, 15, 21].getD (i % 4) 0

/-- The constants, `2 ^ 32 * |sin (i + 1)|` rounded down. -/
def rfcTable : List Word := [
  0xd76aa478, 0xe8c7b756, 0x242070db, 0xc1bdceee, 0xf57c0faf, 0x4787c62a, 0xa8304613, 0xfd469501,
  0x698098d8, 0x8b44f7af, 0xffff5bb1, 0x895cd7be, 0x6b901122, 0xfd987193, 0xa679438e, 0x49b40821,
  0xf61e2562, 0xc040b340, 0x265e5a51, 0xe9b6c7aa, 0xd62f105d, 0x02441453, 0xd8a1e681, 0xe7d3fbc8,
  0x21e1cde6, 0xc33707d6, 0xf4d50d87, 0x455a14ed, 0xa9e3e905, 0xfcefa3f8, 0x676f02d9, 0x8d2a4c8a,
  0xfffa3942, 0x8771f681, 0x6d9d6122, 0xfde5380c, 0xa4beea44, 0x4bdecfa9, 0xf6bb4b60, 0xbebfbc70,
  0x289b7ec6, 0xeaa127fa, 0xd4ef3085, 0x04881d05, 0xd9d4d039, 0xe6db99e5, 0x1fa27cf8, 0xc4ac5665,
  0xf4292244, 0x432aff97, 0xab9423a7, 0xfc93a039, 0x655b59c3, 0x8f0ccc92, 0xffeff47d, 0x85845dd1,
  0x6fa87e4f, 0xfe2ce6e0, 0xa3014314, 0x4e0811a1, 0xf7537e82, 0xbd3af235, 0x2ad7d2bb, 0xeb86d391]

def rfcStep (block : List Byte) (r : MD5Out) (i : ℕ) : MD5Out :=
  let a := r.a + rfcFunction r.b r.c r.d (i / 16) + get block (rfcIndex i) + rfcTable.getD i 0
  ⟨r.d, r.b + a.rotateLeft (rfcShift i), r.b, r.c⟩

def rfcTransform (r : MD5Out) (block : List Byte) : MD5Out := ((List.range 64).foldl (rfcStep block) r).add r

/-- A one bit, zeros up to eight bytes before the end of a block, and the length in bits. -/
def padding (length : ℕ) : List Byte :=
  0x80 :: List.replicate ((119 - length % 64) % 64) 0 ++ Bytes.ofNat 8 (8 * length)

def rfcDigest (message : List Byte) : List Byte :=
  (absorb rfcTransform 64 (md5Init []).toMD5Out (message ++ padding message.length)).bytes

example : rfcDigest [97, 98, 99] = [0x90, 0x01, 0x50, 0x98, 0x3c, 0xd2, 0x4f, 0xb0, 0xd6, 0x96, 0x3f, 0x7d, 0x28,
    0xe1, 0x7f, 0x72] := by
  decide +kernel

/-! ### The transformation is that of the digest -/

def basicAt (i : ℕ) : Basic :=
  match i / 16 with
  | 0 => .f
  | 1 => .g
  | 2 => if i % 2 = 0 then .h else .h2
  | _ => .i

theorem steps_eq : steps = (List.range 64).map fun i => (basicAt i, rfcIndex i, rfcTable.getD i 0, rfcShift i) := rfl

theorem apply_basicAt (x y z : Word) (i : ℕ) : (basicAt i).apply x y z = rfcFunction x y z (i / 16) := by
  unfold basicAt rfcFunction
  split
  · ext j
    simp only [Basic.apply, BitVec.getElem_xor, BitVec.getElem_and, BitVec.getElem_or, BitVec.getElem_not]
    cases x[j] <;> cases y[j] <;> cases z[j] <;> rfl
  · ext j
    simp only [Basic.apply, BitVec.getElem_xor, BitVec.getElem_and, BitVec.getElem_or, BitVec.getElem_not]
    cases x[j] <;> cases y[j] <;> cases z[j] <;> rfl
  · split
    · rfl
    · exact (BitVec.xor_assoc x y z).symm
  · rfl

theorem rfcShift_lt (i : ℕ) : rfcShift i < 32 := by
  have hi : i % 4 < 4 := Nat.mod_lt i (by simp)
  unfold rfcShift
  generalize i % 4 = j at hi
  split <;> interval_cases j <;> simp

/-- The step with its row given. -/
theorem step_eq (block : List Byte) (r : MD5Out) (fn : Basic) (n : ℕ) (t : Word) {k : ℕ} (hk : k < 32) :
    step block r (fn, n, t, k) =
      ⟨r.d, r.b + (r.a + fn.apply r.b r.c r.d + get block n + t).rotateLeft k, r.b, r.c⟩ := by
  have hrot (x : Word) : (x <<< k) ||| (x >>> (32 - k)) = x.rotateLeft k := by
    rw [BitVec.rotateLeft_def, Nat.mod_eq_of_lt hk]
  simp only [step, hrot, BitVec.add_assoc]
  rw [BitVec.add_comm _ r.b]

theorem step_row (block : List Byte) (r : MD5Out) (i : ℕ) :
    step block r (basicAt i, rfcIndex i, rfcTable.getD i 0, rfcShift i) = rfcStep block r i := by
  rw [step_eq block r _ _ _ (rfcShift_lt i), apply_basicAt, rfcStep]

theorem transform_eq : transform = rfcTransform := by
  funext r block
  have hrows (t : MD5Out) :
      (List.range 64).foldl (fun t i => step block t (basicAt i, rfcIndex i, rfcTable.getD i 0, rfcShift i)) t =
        (List.range 64).foldl (rfcStep block) t := by
    generalize List.range 64 = rows
    induction rows generalizing t with
    | nil => rfl
    | cons i rows ih => rw [List.foldl_cons, List.foldl_cons, step_row, ih]
  rw [transform, rfcTransform, steps_eq, List.foldl_map, hrows]

/-! ### The calls take in blocks -/

/-- `body` takes in whole blocks. -/
theorem run_bodyRound {k n : ℕ} {r : MD5Out} {ptr : List Byte} (hk : k < n) (hptr : 64 * (k + 1) ≤ ptr.length)
    (hsize : 64 * (k + 1) < 2 ^ 64) :
    Loop.run bodyRound n (r, ptr, 64 * (k + 1)) =
      .ok (some (rounds transform 64 (k + 1) r ptr, ptr.drop (64 * (k + 1)))) := by
  induction k generalizing n r ptr with
  | zero =>
    obtain ⟨n, rfl⟩ := Nat.exists_eq_succ_of_ne_zero (Nat.ne_of_gt hk)
    apply Loop.run_done
    rw [bodyRound, if_neg (by omega), if_pos (by omega)]
    rfl
  | succ k ih =>
    obtain ⟨n, rfl⟩ := Nat.exists_eq_succ_of_ne_zero (Nat.ne_of_gt (Nat.zero_lt_of_lt hk))
    have hround : bodyRound (r, ptr, 64 * (k + 1 + 1)) =
        .ok (.next (transform r (ptr.take 64), ptr.drop 64, 64 * (k + 1))) := by
      rw [bodyRound, if_neg (by omega), if_neg (by omega)]
      rw [show (64 * (k + 1 + 1) + (2 ^ 64 - 64)) % 2 ^ 64 = 64 * (k + 1) by omega]
    have hdrop : 64 * (k + 1) ≤ (ptr.drop 64).length := by
      rw [List.length_drop]
      omega
    rw [Loop.run_next hround, ih (by omega) hdrop (by omega), List.drop_drop,
      show 64 + 64 * (k + 1) = 64 * (k + 1 + 1) by omega]
    rfl

theorem body_eq (ctx : MD5Ctx) {data : List Byte} {k : ℕ} (hpos : 0 < k) (hdata : 64 * k ≤ data.length)
    (hsize : 64 * k < 2 ^ 64) :
    body ctx data (64 * k) =
      .ok ({ ctx with toMD5Out := rounds transform 64 k ctx.toMD5Out data }, data.drop (64 * k)) := by
  obtain ⟨k, rfl⟩ := Nat.exists_eq_succ_of_ne_zero hpos.ne'
  have hk : k < data.length / 64 + 1 := by omega
  rw [body, run_bodyRound hk hdata hsize]
  rfl

/-- A block in the buffer. -/
theorem body_buffer (ctx : MD5Ctx) {block : List Byte} (h : block.length = 64) :
    body ctx block 64 = .ok ({ ctx with toMD5Out := transform ctx.toMD5Out block }, []) := by
  have hbody := @body_eq ctx block 1 Nat.one_pos (by rw [h]) (by simp)
  rw [Nat.mul_one] at hbody
  rw [hbody, rounds, rounds, ← h, List.take_length, List.drop_length]

/-- `size & ~(unsigned long) 0x3f`. -/
theorem and_blocks {size : ℕ} (h : size < 2 ^ 64) : size &&& (2 ^ 64 - 64) = 64 * (size / 64) := by
  have hhigh : (size &&& (2 ^ 64 - 64)) / 2 ^ 6 = size / 64 := by
    rw [Nat.and_div_two_pow, show (2 ^ 64 - 64) / 2 ^ 6 = 2 ^ 58 - 1 by norm_num, Nat.and_two_pow_sub_one_eq_mod]
    exact Nat.mod_eq_of_lt (by omega)
  have hlow : (size &&& (2 ^ 64 - 64)) % 2 ^ 6 = 0 := by
    rw [Nat.and_mod_two_pow, show (2 ^ 64 - 64) % 2 ^ 6 = 0 by norm_num, Nat.and_zero]
  omega

theorem and_used (n : ℕ) : n &&& 0x3f = n % 64 := Nat.and_two_pow_sub_one_eq_mod n 6

theorem and_low (n : ℕ) : n &&& 0x1fffffff = n % 2 ^ 29 := Nat.and_two_pow_sub_one_eq_mod n 29

/-- The data from here on: its whole blocks are taken in, the rest is in front of the buffer. -/
theorem takeBlocks_eq (ctx : MD5Ctx) {data : List Byte} (hbuffer : ctx.buffer.length = 64)
    (hsize : data.length < 2 ^ 64) :
    takeBlocks ctx data data.length =
      .ok { ctx with
        toMD5Out := absorb transform 64 ctx.toMD5Out data
        buffer := pending 64 data ++ ctx.buffer.drop (data.length % 64) } := by
  by_cases h : 64 ≤ data.length
  · have hbody := body_eq ctx (k := data.length / 64) (by omega) (Nat.mul_div_le _ _) (by omega)
    have hcopy := memcpy_append [] (pending 64 data) ctx.buffer (data.drop (64 * (data.length / 64))) 0
      (by rw [List.drop_zero, pending, List.take_length]) (by rw [Nat.zero_add, pending])
      (by rw [length_pending]; omega)
    rw [List.nil_append, List.length_nil, List.nil_append, length_pending] at hcopy
    rw [takeBlocks, if_pos h, and_blocks hsize, and_used, hbody, Exec.ok_bind]
    dsimp only
    rw [hcopy]
    rfl
  · have hlt : data.length < 64 := by omega
    have hcopy := memcpy_append [] data ctx.buffer data 0 (by simp) (by simp) (by omega)
    rw [List.nil_append, List.length_nil, List.nil_append] at hcopy
    rw [takeBlocks, if_neg h, hcopy, absorb_of_lt hlt, pending_of_lt hlt, Nat.mod_eq_of_lt hlt]
    rfl

/-- The context after a message: its blocks are taken in, the rest is in the buffer, and the counters
hold its length, `hi` up to its 32 bits. -/
structure After (ctx : MD5Ctx) (message : List Byte) : Prop where
  regs : ctx.toMD5Out = absorb transform 64 (md5Init []).toMD5Out message
  lo : ctx.lo = message.length % 2 ^ 29
  hi : ctx.hi = message.length / 2 ^ 29 % 2 ^ 32
  room : ctx.buffer.length = 64
  buffer : ∃ rest, ctx.buffer = pending 64 message ++ rest

theorem after_md5Init {buffer : List Byte} (h : buffer.length = 64) : After (md5Init buffer) [] where
  regs := rfl
  lo := rfl
  hi := rfl
  room := h
  buffer := ⟨buffer, rfl⟩

section Update

variable {ctx : MD5Ctx} {message data : List Byte}

theorem After.used (h : After ctx message) : ctx.lo &&& 0x3f = message.length % 64 := by
  rw [h.lo, and_used]
  omega

/-- The counters go on. -/
theorem After.counters (h : After ctx message) (data : List Byte) :
    (count ctx data.length).lo = (message ++ data).length % 2 ^ 29 ∧
      (count ctx data.length).hi = (message ++ data).length / 2 ^ 29 % 2 ^ 32 := by
  have hlo : (ctx.lo + data.length) % 2 ^ 64 % 2 ^ 29 = (message ++ data).length % 2 ^ 29 := by
    rw [h.lo, List.length_append]
    omega
  refine ⟨by rw [count, ← hlo, and_low], ?_⟩
  simp only [count, and_low, hlo, Nat.shiftRight_eq_div_pow]
  rw [h.lo, h.hi, List.length_append]
  split <;> omega

/-- What a call takes in and what it leaves in the buffer. -/
structure Fed (ctx : MD5Ctx) (data : List Byte) (ctx' : MD5Ctx) : Prop where
  regs : ctx'.toMD5Out = absorb transform 64 ctx.toMD5Out data
  lo : ctx'.lo = ctx.lo
  hi : ctx'.hi = ctx.hi
  room : ctx'.buffer.length = 64
  buffer : ∃ rest, ctx'.buffer = pending 64 data ++ rest

theorem takeBlocks_fed (hroom : ctx.buffer.length = 64) (hsize : data.length < 2 ^ 64) :
    ∃ ctx', takeBlocks ctx data data.length = .ok ctx' ∧ Fed ctx data ctx' := by
  refine ⟨_, takeBlocks_eq ctx hroom hsize, rfl, rfl, rfl, ?_, _, rfl⟩
  simp only [List.length_append, length_pending, List.length_drop, hroom]
  omega

/-- The bytes in the buffer come before the data. -/
theorem feed {rest : List Byte} (hroom : ctx.buffer.length = 64)
    (hbuffer : ctx.buffer = pending 64 message ++ rest) (hsize : data.length < 2 ^ 64) :
    ∃ ctx',
      (if data.length < 64 - message.length % 64 then do
        let buffer ← memcpy ctx.buffer (message.length % 64) data 0 data.length
        .ok { ctx with buffer := buffer }
      else do
        let buffer ← memcpy ctx.buffer (message.length % 64) data 0 (64 - message.length % 64)
        let (ctx, _) ← body { ctx with buffer := buffer } buffer 64
        takeBlocks ctx (data.drop (64 - message.length % 64)) (data.length - (64 - message.length % 64))) = .ok ctx' ∧
      Fed ctx (pending 64 message ++ data) ctx' := by
  have hpending : (pending 64 message).length = message.length % 64 := length_pending
  have hrest : rest.length = 64 - message.length % 64 := by
    rw [hbuffer, List.length_append, hpending] at hroom
    omega
  by_cases hfits : data.length < 64 - message.length % 64
  · have hlt : (pending 64 message ++ data).length < 64 := by
      rw [List.length_append, hpending]
      omega
    have hcopy := memcpy_append (pending 64 message) data rest data 0 (by simp) (by simp) (by omega)
    rw [hpending, ← hbuffer] at hcopy
    rw [if_pos hfits, hcopy]
    refine ⟨_, rfl, (absorb_of_lt hlt).symm, rfl, rfl, ?_, _, by rw [pending_of_lt hlt]⟩
    simp only [List.length_append, List.length_drop, hpending, hrest]
    omega
  · have hlen : (data.take rest.length).length = 64 - message.length % 64 := by
      rw [List.length_take]
      omega
    have hblock : (pending 64 message ++ data.take rest.length).length = 64 := by
      rw [List.length_append, hpending, hlen]
      omega
    have hcopy := memcpy_append (pending 64 message) (data.take rest.length) rest data 0
      (by rw [List.drop_zero, hlen, hrest]) (by rw [hlen]; omega) (by rw [hlen]; omega)
    rw [hpending, hlen, ← hbuffer, ← hrest, List.drop_length, List.append_nil] at hcopy
    have hdrop : data.length - rest.length = (data.drop rest.length).length := List.length_drop.symm
    have hsplit : pending 64 message ++ data =
        pending 64 message ++ data.take rest.length ++ data.drop rest.length := by
      rw [List.append_assoc, List.take_append_drop]
    rw [if_neg hfits, ← hrest, hcopy, Exec.ok_bind, body_buffer _ hblock, Exec.ok_bind, hdrop, hsplit]
    have htake := @takeBlocks_fed ⟨transform ctx.toMD5Out (pending 64 message ++ data.take rest.length),
      ctx.lo, ctx.hi, pending 64 message ++ data.take rest.length⟩ (data.drop rest.length) hblock
      (by rw [List.length_drop]; omega)
    obtain ⟨ctx', hctx, hfed⟩ := htake
    refine ⟨ctx', hctx, ?_, hfed.lo, hfed.hi, hfed.room, ?_⟩
    · rw [hfed.regs, absorb_block (by norm_num) hblock]
    · rw [pending_block (by norm_num) hblock]
      exact hfed.buffer

/-- `MD5_Update` goes on with the message. -/
theorem After.update (h : After ctx message) (hsize : data.length < 2 ^ 64) :
    ∃ ctx', md5Update ctx data = .ok ctx' ∧ After ctx' (message ++ data) := by
  obtain ⟨hlo, hhi⟩ := h.counters data
  obtain ⟨rest, hbuffer⟩ := h.buffer
  have hfed : ∃ ctx', md5Update ctx data = .ok ctx' ∧
      Fed (count ctx data.length) (pending 64 message ++ data) ctx' := by
    rw [md5Update, h.used]
    by_cases hused : message.length % 64 = 0
    · have hnil : pending 64 message = [] := by
        rw [← List.length_eq_zero_iff, length_pending, hused]
      rw [if_pos hused, hnil]
      exact takeBlocks_fed h.room hsize
    · rw [if_neg hused]
      exact @feed (count ctx data.length) message data rest h.room hbuffer hsize
  obtain ⟨ctx', hctx, hfed⟩ := hfed
  refine ⟨ctx', hctx, ?_, hfed.lo.trans hlo, hfed.hi.trans hhi, hfed.room, ?_⟩
  · rw [hfed.regs, absorb_append (l := message) (by norm_num), ← h.regs]
    rfl
  · rw [pending_append (by norm_num)]
    exact hfed.buffer

/-- A message that comes in pieces. -/
theorem After.run {chunks : List (List Byte)} (h : After ctx message)
    (hsize : ∀ data ∈ chunks, data.length < 2 ^ 64) :
    ∃ ctx', Library.run md5Update ctx chunks = .ok ctx' ∧ After ctx' (message ++ chunks.flatten) := by
  induction chunks generalizing ctx message with
  | nil => exact ⟨ctx, rfl, by rwa [List.flatten_nil, List.append_nil]⟩
  | cons data chunks ih =>
    obtain ⟨ctx₁, hctx₁, h₁⟩ := h.update (hsize data List.mem_cons_self)
    obtain ⟨ctx₂, hctx₂, h₂⟩ := ih h₁ fun data hdata => hsize data (List.mem_cons_of_mem _ hdata)
    refine ⟨ctx₂, ?_, by rwa [List.flatten_cons, ← List.append_assoc]⟩
    rw [run_cons, hctx₁, Exec.ok_bind, hctx₂]

end Update

/-! ### The end of a message -/

section Padding

variable (message : List Byte)

/-- The padding goes into the last block. -/
theorem absorb_padding_short (h : message.length % 64 ≤ 55) :
    absorb transform 64 (md5Init []).toMD5Out (message ++ padding message.length) =
      transform (absorb transform 64 (md5Init []).toMD5Out message)
        (pending 64 message ++ [0x80] ++ List.replicate (55 - message.length % 64) 0 ++
          Bytes.ofNat 8 (8 * message.length)) := by
  have hblock : (pending 64 message ++ [0x80] ++ List.replicate (55 - message.length % 64) 0 ++
      Bytes.ofNat 8 (8 * message.length)).length = 64 := by
    simp only [List.length_append, length_pending, List.length_singleton, List.length_replicate,
      Bytes.length_ofNat]
    omega
  have hpadding : pending 64 message ++ padding message.length =
      pending 64 message ++ [0x80] ++ List.replicate (55 - message.length % 64) 0 ++
        Bytes.ofNat 8 (8 * message.length) ++ [] := by
    rw [padding, show (119 - message.length % 64) % 64 = 55 - message.length % 64 by omega]
    simp
  rw [absorb_append (by norm_num), hpadding, absorb_block (by norm_num) hblock,
    absorb_of_lt (by simp)]

/-- The padding needs a further block. -/
theorem absorb_padding_long (h : 55 < message.length % 64) :
    absorb transform 64 (md5Init []).toMD5Out (message ++ padding message.length) =
      transform
        (transform (absorb transform 64 (md5Init []).toMD5Out message)
          (pending 64 message ++ [0x80] ++ List.replicate (63 - message.length % 64) 0))
        ([] ++ List.replicate 56 0 ++ Bytes.ofNat 8 (8 * message.length)) := by
  have hblock : (pending 64 message ++ [0x80] ++ List.replicate (63 - message.length % 64) 0).length = 64 := by
    simp only [List.length_append, length_pending, List.length_singleton, List.length_replicate]
    omega
  have hlast : ([] ++ List.replicate 56 0 ++ Bytes.ofNat 8 (8 * message.length) : List Byte).length = 64 := by simp
  have hpadding : pending 64 message ++ padding message.length =
      pending 64 message ++ [0x80] ++ List.replicate (63 - message.length % 64) 0 ++
        ([] ++ List.replicate 56 0 ++ Bytes.ofNat 8 (8 * message.length) ++ []) := by
    rw [padding, show (119 - message.length % 64) % 64 = 63 - message.length % 64 + 56 by omega, List.replicate_add]
    simp
  rw [absorb_append (by norm_num), hpadding, absorb_block (by norm_num) hblock,
    absorb_block (by norm_num) hlast, absorb_of_lt (by simp)]

end Padding

section Final

variable {ctx : MD5Ctx} {x tail message : List Byte}

theorem clear_eq (hbuffer : ctx.buffer = x ++ tail) {n : ℕ} (hn : n ≤ tail.length) :
    clear ctx x.length n = .ok { ctx with buffer := x ++ List.replicate n 0 ++ tail.drop n } := by
  have hcopy := memcpy_append x (List.replicate n 0) tail (List.replicate n 0) 0 (by simp) (by simp)
    (by simpa using hn)
  rw [List.length_replicate] at hcopy
  rw [clear, hbuffer, hcopy, Exec.ok_bind]

theorem out_eq (hbuffer : ctx.buffer = x ++ tail) {off : ℕ} (hx : x.length = off) (src : ℕ)
    (htail : 4 ≤ tail.length) :
    out ctx off src = .ok { ctx with buffer := x ++ Bytes.ofNat 4 src ++ tail.drop 4 } := by
  have hcopy := memcpy_append x (Bytes.ofNat 4 src) tail (Bytes.ofNat 4 src) 0 (by simp [List.take_of_length_le])
    (by simp) (by simpa using htail)
  rw [Bytes.length_ofNat, hx] at hcopy
  rw [out, hbuffer, hcopy, Exec.ok_bind]

/-- The two counters together are the length in bits. -/
theorem counters_bytes (length : ℕ) :
    Bytes.ofNat 4 ((length % 2 ^ 29) <<< 3 % 2 ^ 32) ++ Bytes.ofNat 4 (length / 2 ^ 29 % 2 ^ 32) =
      Bytes.ofNat 8 (8 * length) := by
  have hlow : (length % 2 ^ 29) <<< 3 % 2 ^ 32 = 8 * length % 256 ^ 4 := by
    rw [Nat.shiftLeft_eq]
    omega
  have hhigh : length / 2 ^ 29 % 2 ^ 32 = 8 * length / 256 ^ 4 % 256 ^ 4 := by omega
  rw [hlow, hhigh, Bytes.ofNat_mod, Bytes.ofNat_mod, ← Bytes.ofNat_add]

theorem lastBlock_eq (hbuffer : ctx.buffer = x ++ tail) (hroom : ctx.buffer.length = 64) (hx : x.length ≤ 56)
    {length : ℕ} (hlo : ctx.lo = length % 2 ^ 29) (hhi : ctx.hi = length / 2 ^ 29 % 2 ^ 32) :
    ∃ ctx', lastBlock ctx x.length = .ok ctx' ∧
      ctx'.toMD5Out =
        transform ctx.toMD5Out (x ++ List.replicate (56 - x.length) 0 ++ Bytes.ofNat 8 (8 * length)) := by
  have hlength : x.length + tail.length = 64 := by rw [← List.length_append, ← hbuffer, hroom]
  have hzeros : (x ++ List.replicate (56 - x.length) 0 : List Byte).length = 56 := by
    rw [List.length_append, List.length_replicate]
    omega
  have hlow (src : ℕ) : (x ++ List.replicate (56 - x.length) 0 ++ Bytes.ofNat 4 src : List Byte).length = 60 := by
    rw [List.length_append, hzeros, Bytes.length_ofNat]
  have hrest : (tail.drop (56 - x.length)).length = 8 := by
    rw [List.length_drop]
    omega
  have hnil : ((tail.drop (56 - x.length)).drop 4).drop 4 = [] := by
    rw [List.drop_drop]
    exact List.drop_of_length_le (by rw [hrest])
  have hblock : (x ++ List.replicate (56 - x.length) 0 ++ Bytes.ofNat 8 (8 * length)).length = 64 := by
    rw [List.length_append, hzeros, Bytes.length_ofNat]
  rw [lastBlock, show 64 - x.length - 8 = 56 - x.length by omega, clear_eq hbuffer (by omega), Exec.ok_bind]
  dsimp only
  rw [out_eq rfl hzeros _ (by rw [hrest]; simp), Exec.ok_bind]
  dsimp only
  rw [out_eq rfl (hlow _) _ (by rw [List.length_drop, hrest]), Exec.ok_bind]
  dsimp only
  rw [hnil, List.append_nil, List.append_assoc, hlo, hhi, counters_bytes, body_buffer _ hblock]
  exact ⟨_, rfl, rfl⟩

/-- Where the `0x80` is. -/
theorem setAt_eq (hbuffer : ctx.buffer = x ++ tail) (htail : 0 < tail.length) (v : Byte) :
    setAt ctx.buffer x.length v = .ok (x ++ [v] ++ tail.drop 1) := by
  cases tail with
  | nil => simp at htail
  | cons y tail =>
    rw [setAt, hbuffer, if_pos (by simp)]
    simp

/-- The digest of the message that the context holds. -/
theorem After.final (h : After ctx message) :
    md5Final ctx = .ok (rfcDigest message, ⟨⟨0, 0, 0, 0⟩, 0, 0, List.replicate 64 0⟩) := by
  obtain ⟨rest, hbuffer⟩ := h.buffer
  have hroom := h.room
  have hpending : (pending 64 message).length = message.length % 64 := length_pending
  have hlt : message.length % 64 < 64 := Nat.mod_lt _ (by norm_num)
  have hrest : rest.length = 64 - message.length % 64 := by
    rw [hbuffer, List.length_append, hpending] at hroom
    omega
  have hset := setAt_eq hbuffer (by omega) 0x80
  rw [hpending] at hset
  have hlength : (pending 64 message ++ [0x80]).length = message.length % 64 + 1 := by
    rw [List.length_append, hpending, List.length_singleton]
  rw [md5Final, h.used, hset, Exec.ok_bind, makeRoom]
  by_cases hfits : 64 - (message.length % 64 + 1) < 8
  · have hclear := @clear_eq { ctx with buffer := pending 64 message ++ [0x80] ++ rest.drop 1 } _ _ rfl
      (63 - message.length % 64) (by rw [List.length_drop]; omega)
    have hnil : (rest.drop 1).drop (63 - message.length % 64) = [] := by
      rw [List.drop_drop]
      exact List.drop_of_length_le (by omega)
    have hblock : (pending 64 message ++ [0x80] ++ List.replicate (63 - message.length % 64) 0).length = 64 := by
      rw [List.length_append, hlength, List.length_replicate]
      omega
    rw [hlength, hnil, List.append_nil] at hclear
    obtain ⟨ctx', hctx, hregs⟩ := @lastBlock_eq { ctx with
      toMD5Out := transform ctx.toMD5Out
        (pending 64 message ++ [0x80] ++ List.replicate (63 - message.length % 64) 0)
      buffer := pending 64 message ++ [0x80] ++ List.replicate (63 - message.length % 64) 0 }
      [] _ rfl hblock (by simp) message.length h.lo h.hi
    rw [List.length_nil] at hctx hregs
    have hdigest := absorb_padding_long message (by omega)
    rw [if_pos hfits, show 64 - (message.length % 64 + 1) = 63 - message.length % 64 by omega, hclear, Exec.ok_bind]
    dsimp only
    rw [body_buffer _ hblock]
    dsimp only [Exec.ok_bind]
    rw [hctx, Exec.ok_bind, hregs, h.regs, rfcDigest, ← transform_eq, hdigest]
  · obtain ⟨ctx', hctx, hregs⟩ := @lastBlock_eq
      { ctx with buffer := pending 64 message ++ [0x80] ++ rest.drop 1 } _ _ rfl
      (by rw [List.length_append, hlength, List.length_drop]; omega) (by omega) message.length h.lo h.hi
    rw [hlength] at hctx hregs
    rw [if_neg hfits, Exec.ok_bind]
    dsimp only
    rw [hctx, Exec.ok_bind, hregs, h.regs, rfcDigest, ← transform_eq, absorb_padding_short message (by omega),
      show 56 - (message.length % 64 + 1) = 55 - message.length % 64 by omega]

end Final

/-- A message in pieces of any lengths has the digest of the whole. -/
theorem digestOf_eq {buffer : List Byte} (hbuffer : buffer.length = 64) {chunks : List (List Byte)}
    (hsize : ∀ data ∈ chunks, data.length < 2 ^ 64) :
    digestOf buffer chunks = .ok (rfcDigest chunks.flatten, ⟨⟨0, 0, 0, 0⟩, 0, 0, List.replicate 64 0⟩) := by
  obtain ⟨ctx, hctx, hafter⟩ := (after_md5Init hbuffer).run hsize
  rw [digestOf, hctx, Exec.ok_bind, hafter.final, List.nil_append]

/-- The message `abc` in two pieces. -/
theorem digestOf_abc :
    digestOf (List.replicate 64 7) [[97], [98, 99]] =
      .ok (rfcDigest [97, 98, 99], ⟨⟨0, 0, 0, 0⟩, 0, 0, List.replicate 64 0⟩) :=
  digestOf_eq (by simp) (by simp)

end DualFuse.Utility.Md5
