import Mathlib.Tactic

/-! Page table entries and virtual addresses (`include/kernel/memory/paging.h`).
An entry is a 64-bit word: a frame number in bits 12 to 51 and flags around it.
A virtual address is split into four indices of nine bits and a page offset;
the index macros are applied after the sign extension is stripped. -/

namespace DualFuse.Memory

abbrev Word := BitVec 64

def pageSize : ℕ := 0x1000

def pfPresent : Word := 0x1
def pfRw : Word := 0x2
def pfUser : Word := 0x4
def pfPs : Word := 0x80
def pfShared : Word := 0x200

/-- Bit 63, which forbids execution. -/
def pfNoExecute : Word := 0x8000000000000000

/-- `entry & flag`, as a condition. -/
def has (flag entry : Word) : Bool := entry &&& flag != 0

def pteAddrMask : Word := 0x000ffffffffff000

def pteGetAddr (value : Word) : Word := value &&& pteAddrMask

def pteGetFlags (value : Word) : Word := value &&& ~~~pteAddrMask

def pPhysAddr (x : Word) : Word := x &&& ~~~0xFFF

def stripSx (a : Word) : Word := a &&& 0xFFFFFFFFFFFF

theorem index_lt (shift : ℕ) (a : Word) : ((a >>> shift) &&& 0x1ff).toNat < 512 := by
  have := Nat.and_le_right (n := (a >>> shift).toNat) (m := (0x1ff#64).toNat)
  rw [BitVec.toNat_and]
  exact lt_of_le_of_lt this (by decide)

/-- `(a >> shift) & PGMASK_ENTRY`. -/
def index (shift : ℕ) (a : Word) : Fin 512 := ⟨((a >>> shift) &&& 0x1ff).toNat, index_lt shift a⟩

def pml4e (a : Word) : Fin 512 := index 39 a
def pdpte (a : Word) : Fin 512 := index 30 a
def pde (a : Word) : Fin 512 := index 21 a
def pte (a : Word) : Fin 512 := index 12 a

/-- The indices into the three upper levels. -/
def upperIndices (virt : Word) : List (Fin 512) := [pml4e (stripSx virt), pdpte (stripSx virt), pde (stripSx virt)]

/-- The four indices that a walk for an address uses. -/
def indices (virt : Word) : List (Fin 512) := upperIndices virt ++ [pte (stripSx virt)]

def bitsToVirtAddr (pml4Index pdpteIndex pdIndex ptIndex : Fin 512) : Word :=
  (BitVec.ofNat 64 pml4Index <<< 39) ||| (BitVec.ofNat 64 pdpteIndex <<< 30) |||
    (BitVec.ofNat 64 pdIndex <<< 21) ||| (BitVec.ofNat 64 ptIndex <<< 12)

/-- The number of the frame that an entry refers to. -/
def entryFrame (entry : Word) : ℕ := (pteGetAddr entry).toNat / pageSize

/-- Both halves of the address space that the processor accepts. -/
def Canonical (virt : Word) : Prop := virt.toNat < 2 ^ 47 ∨ 2 ^ 64 - 2 ^ 47 ≤ virt.toNat

def page (virt : Word) : ℕ := virt.toNat / pageSize

/-! ### Flags -/

@[simp] theorem has_or (flag a b : Word) : has flag (a ||| b) = (has flag a || has flag b) := by
  unfold has
  rw [BitVec.and_or_distrib_right, Bool.eq_iff_iff]
  simp only [bne_iff_ne, ne_eq, Bool.or_eq_true]
  rw [show (0 : Word) = 0#64 from rfl, BitVec.or_eq_zero_iff]
  tauto

theorem has_zero (flag : Word) : has flag 0 = false := by
  unfold has
  rw [show (0 : Word) = 0#64 from rfl, BitVec.zero_and]
  rfl

theorem pteGetAddr_or (a b : Word) : pteGetAddr (a ||| b) = pteGetAddr a ||| pteGetAddr b :=
  BitVec.and_or_distrib_right

/-- The address bits of an entry do not depend on flags outside them. -/
theorem pteGetAddr_or_flags {a flags : Word} (h : pteGetAddr flags = 0) :
    pteGetAddr (a ||| flags) = pteGetAddr a := by
  rw [pteGetAddr_or, h]
  exact BitVec.or_zero

/-! ### Addresses as numbers -/

theorem and_mask_eq (n k : ℕ) : n &&& ((2 ^ k - 1) <<< 12) = n / 4096 % 2 ^ k * 4096 := by
  rw [show (4096 : ℕ) = 2 ^ 12 from rfl, ← Nat.shiftRight_eq_div_pow, ← Nat.and_two_pow_sub_one_eq_mod,
    ← Nat.shiftLeft_eq]
  apply Nat.eq_of_testBit_eq
  intro i
  simp only [Nat.testBit_and, Nat.testBit_shiftLeft, Nat.testBit_shiftRight]
  by_cases hi : 12 ≤ i
  · simp [hi, Nat.add_sub_cancel' hi]
  · simp [hi]

theorem pteGetAddr_toNat (e : Word) : (pteGetAddr e).toNat = e.toNat / 4096 % 2 ^ 40 * 4096 := by
  rw [← and_mask_eq]
  rfl

theorem pPhysAddr_toNat (x : Word) : (pPhysAddr x).toNat = x.toNat / 4096 * 4096 := by
  have hmask : (~~~0xFFF#64 : Word).toNat = (2 ^ 52 - 1) <<< 12 := by decide
  have hlt : x.toNat / 4096 < 2 ^ 52 := by have := x.isLt; omega
  have h := and_mask_eq x.toNat 52
  rw [Nat.mod_eq_of_lt hlt] at h
  rw [← h, ← hmask]
  rfl

theorem stripSx_toNat (a : Word) : (stripSx a).toNat = a.toNat % 2 ^ 48 :=
  Nat.and_two_pow_sub_one_eq_mod a.toNat 48

theorem index_val (shift : ℕ) (a : Word) : (index shift a : ℕ) = a.toNat / 2 ^ shift % 512 := by
  change (a >>> shift).toNat &&& (2 ^ 9 - 1) = _
  rw [Nat.and_two_pow_sub_one_eq_mod, BitVec.toNat_ushiftRight, Nat.shiftRight_eq_div_pow]

/-- The indices of an address are the digits of its page number. -/
theorem indices_val (virt : Word) : (indices virt).map (fun i : Fin 512 => (i : ℕ)) =
    [page virt / 2 ^ 27 % 512, page virt / 2 ^ 18 % 512, page virt / 2 ^ 9 % 512, page virt % 512] := by
  unfold indices upperIndices page pageSize pml4e pdpte pde pte
  simp only [List.cons_append, List.nil_append, List.map_cons, List.map_nil, index_val, stripSx_toNat]
  congr 1
  · omega
  · congr 1
    · omega
    · congr 1
      · omega
      · congr 1
        omega

/-- Canonical addresses with the same indices lie in the same page. -/
theorem page_eq_of_indices {v w : Word} (hv : Canonical v) (hw : Canonical w) (h : indices v = indices w) :
    page v = page w := by
  have h' := congrArg (List.map fun i : Fin 512 => (i : ℕ)) h
  rw [indices_val, indices_val] at h'
  simp only [List.cons.injEq, and_true] at h'
  obtain ⟨h1, h2, h3, h4⟩ := h'
  have := v.isLt
  have := w.isLt
  unfold Canonical at hv hw
  unfold page pageSize at *
  omega

theorem indices_eq_of_page {v w : Word} (h : page v = page w) : indices v = indices w := by
  apply List.map_injective_iff.mpr Fin.val_injective
  rw [indices_val, indices_val, h]

theorem entryFrame_eq (e : Word) : entryFrame e = e.toNat / 4096 % 2 ^ 40 := by
  unfold entryFrame pageSize
  rw [pteGetAddr_toNat, Nat.mul_div_cancel _ (by norm_num)]

theorem entryFrame_lt (e : Word) : entryFrame e < 2 ^ 40 := by
  rw [entryFrame_eq]
  exact Nat.mod_lt _ (by norm_num)

theorem pteGetAddr_eq_frame (e : Word) : (pteGetAddr e).toNat = entryFrame e * pageSize := by
  rw [pteGetAddr_toNat, entryFrame_eq]
  rfl

theorem shiftLeft_index_toNat (i : Fin 512) {k : ℕ} (hk : k ≤ 39) :
    (BitVec.ofNat 64 i <<< k).toNat = 2 ^ k * i := by
  have hpow : 2 ^ k ≤ 2 ^ 39 := Nat.pow_le_pow_right (by norm_num) hk
  have hi := i.isLt
  have hlt : (i : ℕ) * 2 ^ k < 2 ^ 64 := by nlinarith
  have hofNat : (BitVec.ofNat 64 (i : ℕ)).toNat = i := by
    rw [BitVec.toNat_ofNat, Nat.mod_eq_of_lt (by omega)]
  rw [BitVec.toNat_shiftLeft, hofNat, Nat.shiftLeft_eq, Nat.mod_eq_of_lt hlt, Nat.mul_comm]

theorem bitsToVirtAddr_toNat (i4 i3 i2 i1 : Fin 512) :
    (bitsToVirtAddr i4 i3 i2 i1).toNat = 4096 * (2 ^ 27 * i4 + 2 ^ 18 * i3 + 2 ^ 9 * i2 + i1) := by
  have h4 := i4.isLt
  have h3 := i3.isLt
  have h2 := i2.isLt
  have h1 := i1.isLt
  unfold bitsToVirtAddr
  rw [BitVec.toNat_or, BitVec.toNat_or, BitVec.toNat_or, shiftLeft_index_toNat i4 (by omega),
    shiftLeft_index_toNat i3 (by omega), shiftLeft_index_toNat i2 (by omega), shiftLeft_index_toNat i1 (by omega),
    ← Nat.two_pow_add_eq_or_of_lt (i := 39) (by omega),
    show 2 ^ 39 * (i4 : ℕ) + 2 ^ 30 * i3 = 2 ^ 30 * (512 * i4 + i3) by ring,
    ← Nat.two_pow_add_eq_or_of_lt (i := 30) (by omega),
    show 2 ^ 30 * (512 * (i4 : ℕ) + i3) + 2 ^ 21 * i2 = 2 ^ 21 * (512 * (512 * i4 + i3) + i2) by ring,
    ← Nat.two_pow_add_eq_or_of_lt (i := 21) (by omega)]
  ring

/-- The address made of four indices has these indices. -/
theorem indices_bitsToVirtAddr (i4 i3 i2 i1 : Fin 512) :
    indices (bitsToVirtAddr i4 i3 i2 i1) = [i4, i3, i2, i1] := by
  have h4 := i4.isLt
  have h3 := i3.isLt
  have h2 := i2.isLt
  have h1 := i1.isLt
  apply List.map_injective_iff.mpr Fin.val_injective
  rw [indices_val, page, bitsToVirtAddr_toNat, pageSize]
  simp only [List.map_cons, List.map_nil, List.cons.injEq, and_true]
  omega

end DualFuse.Memory
