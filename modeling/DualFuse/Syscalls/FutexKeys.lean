import DualFuse.Memory.Mmap
import DualFuse.Syscalls.Futex

/-! The key of a futex (`futexSyscall` of `syscalls/futex.cpp`). It is meant to be the physical
address of the word, and `virtual_to_physical` takes the start of the direct map from the
address without a look at the page tables. So the keys are the same for one address in all
directories, and differ for two addresses of one shared word. -/

namespace DualFuse.Syscalls

open Library Utility Memory

/-- The key of a call for a word of user memory. -/
def futexKey (hhdmOffset addr : ℕ) : Exec (Option ℕ) :=
  FutexSystem.key (fun pointer => (virtualToPhysical hhdmOffset (address pointer)).toNat) addr

/-- The physical address that a directory gives a virtual one. -/
def physicalWord (m : PagedMemory) (pagedir addr : ℕ) : Option ℕ :=
  (m.translate pagedir (address addr)).map fun (entry, rest) => walkFrame entry rest * pageSize + addr % pageSize

/-- Two addresses have a key, and it is the same one. -/
def SameKey (hhdmOffset addr addr' : ℕ) : Prop :=
  ∃ phys, futexKey hhdmOffset addr = .ok (some phys) ∧ futexKey hhdmOffset addr' = .ok (some phys)

/-- Two addresses, each in a directory, are mapped to the same physical word. -/
def SameWord (m : PagedMemory) (pagedir addr pagedir' addr' : ℕ) : Prop :=
  ∃ phys, physicalWord m pagedir addr = some phys ∧ physicalWord m pagedir' addr' = some phys

/-- An address of user space that the call takes. -/
structure UserWord (addr : ℕ) : Prop where
  pos : 0 < addr
  user : addr < 2 ^ 47
  aligned : addr % 4 = 0

variable {hhdmOffset addr addr' : ℕ}

/-- The key of an address in user space. -/
theorem UserWord.futexKey_eq (h : UserWord addr) (hlow : 2 ^ 47 ≤ hhdmOffset) (hhigh : hhdmOffset < 2 ^ 64) :
    futexKey hhdmOffset addr = .ok (some (addr + (2 ^ 64 - hhdmOffset))) := by
  have huser := h.user
  have hpos := h.pos
  have hphys : (virtualToPhysical hhdmOffset (address addr)).toNat = addr + (2 ^ 64 - hhdmOffset) := by
    unfold virtualToPhysical address
    rw [BitVec.toNat_sub, BitVec.toNat_ofNat, BitVec.toNat_ofNat]
    omega
  have hmapped : (virtualToPhysical hhdmOffset (address addr)).toNat ≠ 0 := by omega
  have htaken : ¬(addr = 0 ∨ addr % 4 ≠ 0) := by
    rw [not_or, not_not]
    exact ⟨by omega, h.aligned⟩
  rw [futexKey, FutexSystem.key, if_neg htaken, if_neg hmapped]
  exact congrArg (fun phys => Except.ok (some phys)) hphys

theorem sameKey_iff (h : UserWord addr) (h' : UserWord addr') (hlow : 2 ^ 47 ≤ hhdmOffset)
    (hhigh : hhdmOffset < 2 ^ 64) : SameKey hhdmOffset addr addr' ↔ addr = addr' := by
  unfold SameKey
  rw [h.futexKey_eq hlow hhigh, h'.futexKey_eq hlow hhigh]
  constructor
  · rintro ⟨phys, hphys, hphys'⟩
    have heq := Option.some.inj (Except.ok.inj hphys)
    have heq' := Option.some.inj (Except.ok.inj hphys')
    omega
  · rintro rfl
    exact ⟨_, rfl, rfl⟩

/-- The keys of two addresses are true of the words behind them exactly if the same word is at
one address only, and at the same one. -/
theorem futexKeys_true_iff (h : UserWord addr) (h' : UserWord addr') (hlow : 2 ^ 47 ≤ hhdmOffset)
    (hhigh : hhdmOffset < 2 ^ 64) (m : PagedMemory) (pagedir pagedir' : ℕ) :
    (SameKey hhdmOffset addr addr' ↔ SameWord m pagedir addr pagedir' addr') ↔
      (addr = addr' ↔ SameWord m pagedir addr pagedir' addr') := by
  rw [sameKey_iff h h' hlow hhigh]

local instance entriesNeZero : NeZero 512 := ⟨by decide⟩

/-- Two address spaces with a private page each at address `0x1000`: the directories are frames
1 and 5. -/
def privatePages : PagedMemory where
  bitmap := smallMemory
  words frame i :=
    if i = 0 ∧ frame ∈ [1, 2, 3, 5, 6, 7] then address ((frame + 1) * pageSize + 7)
    else if i = 1 ∧ frame ∈ [4, 8] then address ((frame + 5) * pageSize + 7) else 0

theorem userWord_page : UserWord 0x1000 := ⟨by decide, by decide, by decide⟩

theorem futexKeys_privatePages :
    (SameKey (2 ^ 64 - 2 ^ 47) 0x1000 0x1000 ↔ SameWord privatePages 1 0x1000 5 0x1000) ↔
      (0x1000 = 0x1000 ↔ SameWord privatePages 1 0x1000 5 0x1000) :=
  futexKeys_true_iff userWord_page userWord_page (by decide) (by decide) privatePages 1 5

theorem privatePages_words :
    physicalWord privatePages 1 0x1000 = some 0x9000 ∧ physicalWord privatePages 5 0x1000 = some 0xd000 := by
  decide +kernel

/-- The two private words have one key. -/
theorem private_words_share_key :
    ¬(SameKey (2 ^ 64 - 2 ^ 47) 0x1000 0x1000 ↔ SameWord privatePages 1 0x1000 5 0x1000) := by
  rw [sameKey_iff userWord_page userWord_page (by decide) (by decide)]
  intro h
  obtain ⟨phys, hphys, hphys'⟩ := h.mp rfl
  rw [privatePages_words.1] at hphys
  rw [privatePages_words.2] at hphys'
  have heq := (Option.some.inj hphys).trans (Option.some.inj hphys').symm
  omega

end DualFuse.Syscalls
