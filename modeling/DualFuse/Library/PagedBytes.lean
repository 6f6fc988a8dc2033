import DualFuse.Library.Bytes
import DualFuse.Library.Execution

/-! Memory by bytes in which some addresses are not mapped. A store there is a fault. Stores
side by side are one store, whether they go up, as the pieces of a copy do, or down, as the
words that are pushed on a stack. -/

namespace DualFuse.Library

structure PagedBytes where
  mapped : ℕ → Bool
  bytes : ℕ → BitVec 8

namespace PagedBytes

/-- The `n` addresses from `a` on are mapped. -/
def Ready (m : PagedBytes) (a n : ℕ) : Prop := ∀ i < n, m.mapped (a + i) = true

instance (m : PagedBytes) (a n : ℕ) : Decidable (m.Ready a n) :=
  inferInstanceAs (Decidable (∀ i < n, m.mapped (a + i) = true))

/-- What a store that faults nowhere leaves. -/
def written (m : PagedBytes) (a : ℕ) (l : List (BitVec 8)) : PagedBytes := ⟨m.mapped, Bytes.write m.bytes a l⟩

def store (m : PagedBytes) (a : ℕ) (l : List (BitVec 8)) : Exec PagedBytes :=
  if m.Ready a l.length then .ok (m.written a l) else .error .fault

/-- Pieces that are copied one behind the other. -/
def copyAll : (m : PagedBytes) → (a : ℕ) → List (List (BitVec 8)) → Exec PagedBytes
  | m, _, [] => .ok m
  | m, a, l :: ls => do
    let m ← m.store a l
    copyAll m (a + l.length) ls

/-- Words of 64 bits, pushed on a stack. -/
def pushAll : (m : PagedBytes) → (rsp : ℕ) → List ℕ → Exec (PagedBytes × ℕ)
  | m, rsp, [] => .ok (m, rsp)
  | m, rsp, w :: ws => do
    let m ← m.store (rsp - 8) (Bytes.ofNat 8 w)
    pushAll m (rsp - 8) ws

/-- Words in memory, the first one lowest. -/
def encode (ws : List ℕ) : List (BitVec 8) := ws.flatMap (Bytes.ofNat 8)

variable {m m' : PagedBytes} {a n k rsp rsp' : ℕ} {l l' : List (BitVec 8)} {ls : List (List (BitVec 8))} {ws : List ℕ}

@[simp] theorem mapped_written (m : PagedBytes) (a : ℕ) (l : List (BitVec 8)) : (m.written a l).mapped = m.mapped := rfl

@[simp] theorem bytes_written (m : PagedBytes) (a : ℕ) (l : List (BitVec 8)) :
    (m.written a l).bytes = Bytes.write m.bytes a l := rfl

@[simp] theorem ready_written : (m.written a l).Ready n k ↔ m.Ready n k := Iff.rfl

theorem ready_zero (m : PagedBytes) (a : ℕ) : m.Ready a 0 := fun _ h => absurd h (Nat.not_lt_zero _)

theorem ready_add : m.Ready a (n + k) ↔ m.Ready a n ∧ m.Ready (a + n) k := by
  constructor
  · intro h
    refine ⟨fun i hi => h i (by omega), fun i hi => ?_⟩
    rw [Nat.add_assoc]
    exact h (n + i) (by omega)
  · rintro ⟨hn, hk⟩ i hi
    by_cases hlow : i < n
    · exact hn i hlow
    · have hmapped := hk (i - n) (by omega)
      rwa [show a + n + (i - n) = a + i by omega] at hmapped

theorem store_ok_iff : m.store a l = .ok m' ↔ m.Ready a l.length ∧ m' = m.written a l := by
  unfold store
  split_ifs with h
  · exact ⟨fun heq => ⟨h, (Except.ok.inj heq).symm⟩, fun heq => by rw [heq.2]⟩
  · constructor
    · intro heq
      cases heq
    · exact fun heq => absurd heq.1 h

theorem write_nil (b : ℕ → BitVec 8) (a : ℕ) : Bytes.write b a [] = b := by
  funext i
  rcases Nat.lt_or_ge i a with h | h
  · exact Bytes.write_of_lt h
  · exact Bytes.write_of_ge h

/-- A store of a list is the stores of two parts of it, in either order. -/
theorem write_append (b : ℕ → BitVec 8) (a : ℕ) (l l' : List (BitVec 8)) :
    Bytes.write b a (l ++ l') = Bytes.write (Bytes.write b a l) (a + l.length) l' := by
  funext i
  rcases Nat.lt_or_ge i a with h | h
  · rw [Bytes.write_of_lt h, Bytes.write_of_lt (by omega), Bytes.write_of_lt h]
  obtain ⟨j, rfl⟩ := Nat.exists_eq_add_of_le h
  rcases Nat.lt_or_ge j l.length with hj | hj
  · have hall : j < (l ++ l').length := by
      rw [List.length_append]
      omega
    rw [Bytes.write_inside hall, Bytes.write_of_lt (by omega), Bytes.write_inside hj, List.getElem_append_left hj]
  obtain ⟨k, rfl⟩ := Nat.exists_eq_add_of_le hj
  rcases Nat.lt_or_ge k l'.length with hk | hk
  · have hall : l.length + k < (l ++ l').length := by
      rw [List.length_append]
      omega
    rw [Bytes.write_inside hall, ← Nat.add_assoc, Bytes.write_inside hk, List.getElem_append_right (by omega)]
    simp only [Nat.add_sub_cancel_left]
  · rw [Bytes.write_of_ge (by rw [List.length_append]; omega), Bytes.write_of_ge (by omega), Bytes.write_of_ge (by omega)]

theorem write_append' (b : ℕ → BitVec 8) (a : ℕ) (l l' : List (BitVec 8)) :
    Bytes.write b a (l ++ l') = Bytes.write (Bytes.write b (a + l.length) l') a l := by
  rw [write_append]
  funext i
  rcases Nat.lt_or_ge i (a + l.length) with h | h
  · rw [Bytes.write_of_lt h]
    rcases Nat.lt_or_ge i a with hi | hi
    · rw [Bytes.write_of_lt hi, Bytes.write_of_lt hi, Bytes.write_of_lt h]
    · obtain ⟨j, rfl⟩ := Nat.exists_eq_add_of_le hi
      rw [Bytes.write_inside (by omega), Bytes.write_inside (by omega)]
  · obtain ⟨j, rfl⟩ := Nat.exists_eq_add_of_le h
    rw [Bytes.write_of_ge (l := l) h]
    rcases Nat.lt_or_ge j l'.length with hj | hj
    · rw [Bytes.write_inside hj, Bytes.write_inside hj]
    · rw [Bytes.write_of_ge (by omega), Bytes.write_of_ge (by omega), Bytes.write_of_ge (by omega)]

theorem copyAll_ok_iff : copyAll m a ls = .ok m' ↔ m.Ready a ls.flatten.length ∧ m' = m.written a ls.flatten := by
  induction ls generalizing m a with
  | nil =>
    rw [copyAll, List.flatten_nil, written, write_nil]
    exact ⟨fun h => ⟨m.ready_zero a, (Except.ok.inj h).symm⟩, fun h => by rw [h.2]⟩
  | cons l ls ih =>
    rw [copyAll, Exec.bind_ok_iff, List.flatten_cons, List.length_append, ready_add, written, write_append]
    constructor
    · rintro ⟨m₁, hstore, hrest⟩
      obtain ⟨hready, rfl⟩ := store_ok_iff.mp hstore
      obtain ⟨hready', rfl⟩ := ih.mp hrest
      exact ⟨⟨hready, hready'⟩, rfl⟩
    · rintro ⟨⟨hready, hready'⟩, rfl⟩
      exact ⟨m.written a l, store_ok_iff.mpr ⟨hready, rfl⟩, ih.mpr ⟨hready', rfl⟩⟩

@[simp] theorem length_encode (ws : List ℕ) : (encode ws).length = 8 * ws.length := by
  induction ws with
  | nil => rfl
  | cons w ws ih =>
    rw [encode, List.flatMap_cons, List.length_append, Bytes.length_ofNat, List.length_cons]
    rw [encode] at ih
    omega

theorem encode_append (ws ws' : List ℕ) : encode (ws ++ ws') = encode ws ++ encode ws' := List.flatMap_append

/-- A word is read back from its place. -/
theorem readNat_encode (b : ℕ → BitVec 8) (a : ℕ) {i : ℕ} (hi : i < ws.length) :
    Bytes.readNat (Bytes.write b a (encode ws)) (a + 8 * i) 8 = ws[i] % 2 ^ 64 := by
  have hsplit : ws = ws.take i ++ ws[i] :: ws.drop (i + 1) := by
    rw [List.getElem_cons_drop, List.take_append_drop]
  have htake : (ws.take i).length = i := by
    rw [List.length_take]
    omega
  have hencode : encode ws = encode (ws.take i) ++ (Bytes.ofNat 8 ws[i] ++ encode (ws.drop (i + 1))) := by
    have hcons : encode (ws[i] :: ws.drop (i + 1)) = Bytes.ofNat 8 ws[i] ++ encode (ws.drop (i + 1)) := rfl
    rw [← hcons, ← encode_append, ← hsplit]
  have hread := Bytes.read_write (b := Bytes.write (Bytes.write b a (encode (ws.take i))) (a + 8 * i + 8)
    (encode (ws.drop (i + 1)))) (o := a + 8 * i) (l := Bytes.ofNat 8 ws[i])
  rw [Bytes.length_ofNat] at hread
  rw [hencode, write_append, length_encode, htake, write_append', Bytes.length_ofNat, Bytes.readNat, hread,
    Bytes.toNat_ofNat]
  rfl

theorem pushAll_ok_iff (h : 8 * ws.length ≤ rsp) :
    pushAll m rsp ws = .ok (m', rsp') ↔ m.Ready (rsp - 8 * ws.length) (8 * ws.length) ∧
      rsp' = rsp - 8 * ws.length ∧ m' = m.written (rsp - 8 * ws.length) (encode ws.reverse) := by
  induction ws generalizing m rsp with
  | nil =>
    rw [pushAll, List.reverse_nil, List.length_nil, encode, List.flatMap_nil, written, write_nil]
    constructor
    · intro heq
      cases heq
      exact ⟨ready_zero _ _, rfl, rfl⟩
    · rintro ⟨-, rfl, rfl⟩
      rfl
  | cons w ws ih =>
    rw [List.length_cons] at h ⊢
    have hplace : rsp - 8 * (ws.length + 1) = rsp - 8 - 8 * ws.length := by omega
    have htop : rsp - 8 - 8 * ws.length + 8 * ws.length = rsp - 8 := by omega
    have hsize : 8 * (ws.length + 1) = 8 * ws.length + 8 := by omega
    have hlist : encode (w :: ws).reverse = encode ws.reverse ++ Bytes.ofNat 8 w := by
      rw [List.reverse_cons, encode_append]
      exact congrArg _ (List.append_nil _)
    rw [pushAll, Exec.bind_ok_iff, hplace, hsize, ready_add, htop, hlist, written, write_append', length_encode,
      List.length_reverse, htop]
    constructor
    · rintro ⟨m₁, hstore, hrest⟩
      obtain ⟨hready, rfl⟩ := store_ok_iff.mp hstore
      rw [Bytes.length_ofNat] at hready
      obtain ⟨hready', rfl, rfl⟩ := (ih (by omega)).mp hrest
      exact ⟨⟨hready', hready⟩, rfl, rfl⟩
    · rintro ⟨⟨hready', hready⟩, rfl, rfl⟩
      refine ⟨m.written (rsp - 8) (Bytes.ofNat 8 w), store_ok_iff.mpr ⟨?_, rfl⟩, (ih (by omega)).mpr ⟨hready', rfl, rfl⟩⟩
      rwa [Bytes.length_ofNat]

end PagedBytes

end DualFuse.Library
