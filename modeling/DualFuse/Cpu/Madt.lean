import DualFuse.Library.Records
import DualFuse.Library.Bytes
import Mathlib.Data.Nat.Bitwise

/-! The walks over the interrupt controllers of the firmware (`initiateAPIC` and `ioApicRedirect` in
`cpu/apic.cpp`). Addresses count from the start of the table, whose header says that it has
`length` bytes. What lies behind the table is memory like any other. -/

namespace DualFuse.Cpu.Madt

open Library Records

/-- `sizeof(AcpiMadt)`. -/
def fixedPart : ℕ := 44

def entryTypeIoapic : ℕ := 1

def entryTypeInterruptSourceOverride : ℕ := 2

def entryTypeLapicAddressOverride : ℕ := 5

section Entries
variable (bytes : ℕ → BitVec 8)

def entryType (curr : ℕ) : ℕ := (bytes curr).toNat

def entryLength (curr : ℕ) : ℕ := (bytes (curr + 1)).toNat

/-- Where the entries begin, each behind the one before it. -/
def entry (n : ℕ) : ℕ := position (entryLength bytes) fixedPart n

/-- The address up to which both loops go: `curr + madt->hdr.length`, from the first entry. -/
def walkEnd (length : ℕ) : ℕ := fixedPart + length

/-! ### The loop of `initiateAPIC` -/

structure Ioapic where
  id : BitVec 8
  ioapicPhys : ℕ
  ioapicRedStart : ℕ
  ioapicRedEnd : ℕ

/-- The I/O APICs found so far and the address of the local APIC. -/
structure Controllers where
  dsIoapic : List Ioapic
  apicPhys : ℕ

/-- One entry. The `lapic_address` of an override is aligned to eight bytes. What an I/O APIC answers
for its capacity is a parameter. -/
def initiateVisit (capacity : ℕ → ℕ) (curr : ℕ) (c : Controllers) : Controllers :=
  if entryType bytes curr = entryTypeIoapic then
    let address := Bytes.readNat bytes (curr + 4) 4
    let gsiBase := Bytes.readNat bytes (curr + 8) 4
    { c with dsIoapic := c.dsIoapic ++ [⟨bytes (curr + 2), address, gsiBase, gsiBase + capacity address⟩] }
  else if entryType bytes curr = entryTypeLapicAddressOverride then
    { c with apicPhys := Bytes.readNat bytes (curr + 8) 8 }
  else c

/-- The addresses that are read for an entry. -/
def initiateReads (curr : ℕ) : List ℕ :=
  if entryType bytes curr = entryTypeIoapic then [curr, curr + 2] ++ List.range' (curr + 4) 8 ++ [curr + 1]
  else if entryType bytes curr = entryTypeLapicAddressOverride then [curr] ++ List.range' (curr + 8) 8 ++ [curr + 1]
  else [curr, curr + 1]

def initiateWalk (length : ℕ) (capacity : ℕ → ℕ) (c : Controllers) (fuel : ℕ) : Option (List ℕ × Controllers) :=
  walk (entryLength bytes) (fun _ => false) (initiateReads bytes) (initiateVisit bytes capacity) (walkEnd length) fuel
    fixedPart c

/-! ### The loop of `ioApicRedirect` -/

structure Redirection where
  irq : BitVec 8
  polarity : ℕ
  trigger : ℕ
  deriving DecidableEq

/-- The entry is a source override for `irq`. -/
def isOverride (irq : BitVec 8) (curr : ℕ) : Bool :=
  entryType bytes curr = entryTypeInterruptSourceOverride && bytes (curr + 3) = irq

def gsi (curr : ℕ) : ℕ := Bytes.readNat bytes (curr + 4) 4

def flags (curr : ℕ) : ℕ := Bytes.readNat bytes (curr + 8) 2

/-- `irq = specialized->gsi`, a `uint8_t`, and the two flags. -/
def overrideOf (curr : ℕ) : Redirection where
  irq := BitVec.ofNat 8 (gsi bytes curr)
  polarity := if flags bytes curr &&& 2 ≠ 0 then 1 else 0
  trigger := if flags bytes curr &&& 8 ≠ 0 then 1 else 0

def redirectVisit (irq : BitVec 8) (curr : ℕ) (r : Redirection) : Redirection :=
  if isOverride bytes irq curr then overrideOf bytes curr else r

def redirectReads (irq : BitVec 8) (curr : ℕ) : List ℕ :=
  if isOverride bytes irq curr then [curr, curr + 3] ++ List.range' (curr + 4) 6
  else if entryType bytes curr = entryTypeInterruptSourceOverride then [curr, curr + 3, curr + 1]
  else [curr, curr + 1]

/-- The loop that looks for an override of `irq`, from the identity. -/
def redirectWalk (length : ℕ) (irq : BitVec 8) (fuel : ℕ) : Option (List ℕ × Redirection) :=
  walk (entryLength bytes) (isOverride bytes irq) (redirectReads bytes irq) (redirectVisit bytes irq) (walkEnd length)
    fuel fixedPart ⟨irq, 0, 0⟩

/-! ### What the walks are for -/

/-- The loop comes to an end, and read only inside the table. -/
def Inside {ρ : Type} (length : ℕ) (loop : ℕ → Option (List ℕ × ρ)) : Prop :=
  ∃ fuel x, loop fuel = some x ∧ ∀ o ∈ x.1, o < length

/-- The first override of `irq` in the table. -/
structure FirstOverride (length : ℕ) (irq : BitVec 8) (n : ℕ) : Prop where
  inside : entry bytes n < length
  here : isOverride bytes irq (entry bytes n) = true
  first : ∀ j < n, isOverride bytes irq (entry bytes j) = false

/-- What an override says: its interrupt, bit 1 of its flags, and bit 3. -/
def Says (curr : ℕ) (r : Redirection) : Prop :=
  r.irq.toNat = gsi bytes curr ∧ r.polarity = ((flags bytes curr).testBit 1).toNat ∧
    r.trigger = ((flags bytes curr).testBit 3).toNat

/-- The redirection is the one of the first override in the table, or the identity without one. -/
def Redirects (length : ℕ) (irq : BitVec 8) (r : Redirection) : Prop :=
  (∃ n, FirstOverride bytes length irq n ∧ Says bytes (entry bytes n) r) ∨
    ((∀ n, ¬FirstOverride bytes length irq n) ∧ r = ⟨irq, 0, 0⟩)

/-! ### When they are right -/

/-- The bytes of an entry that `initiateAPIC` reads. -/
def initiateUsed (curr : ℕ) : ℕ :=
  if entryType bytes curr = entryTypeIoapic then 12
  else if entryType bytes curr = entryTypeLapicAddressOverride then 16
  else 2

/-- An entry inside the table reaches to the end of the walk, and all entries up to it are inside the
table as far as they are read. -/
def InitiateLeaps (length : ℕ) : Prop :=
  ∃ n, (∀ j < n, entry bytes j + initiateUsed bytes (entry bytes j) ≤ length) ∧ walkEnd length ≤ entry bytes n

/-- The bytes of an entry that `ioApicRedirect` reads where it goes on. -/
def redirectUsed (curr : ℕ) : ℕ := if entryType bytes curr = entryTypeInterruptSourceOverride then 4 else 2

/-- As for `initiateAPIC`, where an override of the interrupt in the table ends the walk too. -/
def RedirectLeaps (length : ℕ) (irq : BitVec 8) : Prop :=
  ∃ n, (∀ j < n, isOverride bytes irq (entry bytes j) = false ∧
      entry bytes j + redirectUsed bytes (entry bytes j) ≤ length) ∧
    (walkEnd length ≤ entry bytes n ∨ isOverride bytes irq (entry bytes n) = true ∧ entry bytes n + 10 ≤ length)

/-- The first override in the table is for an interrupt below 256; or there is none, and the memory
behind the table leads to the end of the walk, or to an override that says the identity. -/
def RedirectFits (length : ℕ) (irq : BitVec 8) : Prop :=
  (∃ n, FirstOverride bytes length irq n ∧ gsi bytes (entry bytes n) < 256) ∨
    ((∀ n, ¬FirstOverride bytes length irq n) ∧
      ∃ n, Ends (entryLength bytes) (isOverride bytes irq) (walkEnd length) fixedPart n ∧
        (walkEnd length ≤ entry bytes n ∨ overrideOf bytes (entry bytes n) = ⟨irq, 0, 0⟩))

end Entries

section Walks
variable {bytes : ℕ → BitVec 8} {length : ℕ} {irq : BitVec 8}

theorem forall_range'_lt_iff (s n : ℕ) : (∀ o ∈ List.range' s (n + 1), o < length) ↔ s + n < length := by
  simp only [List.mem_range'_1]
  constructor
  · exact fun h => h (s + n) ⟨by omega, by omega⟩
  · intro h o ho
    omega

theorem initiateReads_lt_iff (curr : ℕ) :
    (∀ o ∈ initiateReads bytes curr, o < length) ↔ curr + initiateUsed bytes curr ≤ length := by
  unfold initiateReads initiateUsed
  split_ifs
  · simp only [List.forall_mem_append, List.forall_mem_cons, forall_range'_lt_iff]
    simp
    omega
  · simp only [List.forall_mem_append, List.forall_mem_cons, forall_range'_lt_iff]
    simp
    omega
  · simp
    omega

theorem redirectReads_lt_iff_of_goes {curr : ℕ} (h : isOverride bytes irq curr = false) :
    (∀ o ∈ redirectReads bytes irq curr, o < length) ↔ curr + redirectUsed bytes curr ≤ length := by
  unfold redirectReads redirectUsed
  rw [if_neg (by simp [h])]
  split_ifs
  · simp
    omega
  · simp
    omega

theorem redirectReads_lt_iff_of_stops {curr : ℕ} (h : isOverride bytes irq curr = true) :
    (∀ o ∈ redirectReads bytes irq curr, o < length) ↔ curr + 10 ≤ length := by
  unfold redirectReads
  rw [if_pos h]
  simp only [List.forall_mem_append, List.forall_mem_cons, forall_range'_lt_iff]
  simp
  omega

/-- A loop stays inside the table exactly when it ends and stays there for each entry it visits. -/
theorem inside_iff {ρ : Type} {stops : ℕ → Bool} {reads : ℕ → List ℕ} {visit : ℕ → ρ → ρ} {r : ρ} :
    Inside length (fun fuel => walk (entryLength bytes) stops reads visit (walkEnd length) fuel fixedPart r) ↔
      ∃ n, Ends (entryLength bytes) stops (walkEnd length) fixedPart n ∧
        (∀ j < n, ∀ o ∈ reads (entry bytes j), o < length) ∧
          (entry bytes n < walkEnd length → ∀ o ∈ reads (entry bytes n), o < length) := by
  rw [Inside, walk_iff reads visit r fun rs _ => ∀ o ∈ rs, o < length]
  apply exists_congr
  intro n
  apply and_congr_right
  intro _
  rw [List.forall_mem_flatMap]
  exact forall_visited_iff

theorem entry_lt_walkEnd {n used : ℕ} (h : entry bytes n + used ≤ length) : entry bytes n < walkEnd length := by
  unfold walkEnd fixedPart
  omega

theorem initiate_inside_iff (capacity : ℕ → ℕ) (c : Controllers) :
    Inside length (initiateWalk bytes length capacity c) ↔ InitiateLeaps bytes length := by
  unfold initiateWalk
  rw [inside_iff]
  apply exists_congr
  intro n
  simp only [initiateReads_lt_iff]
  constructor
  · rintro ⟨hends, hbefore, -⟩
    exact ⟨hbefore, hends.here.resolve_right Bool.false_ne_true⟩
  · rintro ⟨hbefore, hend⟩
    exact ⟨⟨fun j hj => ⟨entry_lt_walkEnd (hbefore j hj), rfl⟩, .inl hend⟩, hbefore, fun h => absurd hend (by omega)⟩

theorem redirect_inside_iff : Inside length (redirectWalk bytes length irq) ↔ RedirectLeaps bytes length irq := by
  unfold redirectWalk
  rw [inside_iff]
  apply exists_congr
  intro n
  constructor
  · rintro ⟨hends, hbefore, hhere⟩
    refine ⟨fun j hj => ?_, ?_⟩
    · have hgoes := (hends.passed j hj).2
      exact ⟨hgoes, (redirectReads_lt_iff_of_goes hgoes).mp (hbefore j hj)⟩
    · by_cases hlt : entry bytes n < walkEnd length
      · have hstops := hends.here.resolve_left (by simpa [entry] using hlt)
        exact .inr ⟨hstops, (redirectReads_lt_iff_of_stops hstops).mp (hhere hlt)⟩
      · exact .inl (by omega)
  · rintro ⟨hbefore, hend⟩
    refine ⟨⟨fun j hj => ⟨entry_lt_walkEnd (hbefore j hj).2, (hbefore j hj).1⟩, ?_⟩, fun j hj => ?_, fun hlt => ?_⟩
    · exact hend.imp_right And.left
    · exact (redirectReads_lt_iff_of_goes (hbefore j hj).1).mpr (hbefore j hj).2
    · obtain ⟨hstops, hin⟩ := hend.resolve_left (by omega)
      exact (redirectReads_lt_iff_of_stops hstops).mpr hin

/-- The walk ends at the first override in the table. -/
theorem FirstOverride.ends {n : ℕ} (h : FirstOverride bytes length irq n) :
    Ends (entryLength bytes) (isOverride bytes irq) (walkEnd length) fixedPart n where
  passed j hj := by
    have hle : entry bytes j ≤ entry bytes n := position_mono _ _ hj.le
    exact ⟨hle.trans_lt (h.inside.trans_le (Nat.le_add_left _ _)), h.first j hj⟩
  here := .inr h.here

theorem flag_eq (v i : ℕ) : (if v &&& 2 ^ i ≠ 0 then 1 else 0) = (v.testBit i).toNat := by
  rw [Nat.and_two_pow]
  cases v.testBit i with
  | false => simp
  | true => simp

theorem says_overrideOf_iff (curr : ℕ) : Says bytes curr (overrideOf bytes curr) ↔ gsi bytes curr < 256 := by
  have hpolarity := flag_eq (flags bytes curr) 1
  have htrigger := flag_eq (flags bytes curr) 3
  rw [Nat.pow_one] at hpolarity
  rw [show 2 ^ 3 = 8 from rfl] at htrigger
  simp only [Says, overrideOf, hpolarity, htrigger, BitVec.toNat_ofNat, and_true]
  omega

/-- What the loop leaves where it ends. -/
def resultAt (bytes : ℕ → BitVec 8) (length : ℕ) (irq : BitVec 8) (n : ℕ) : Redirection :=
  if entry bytes n < walkEnd length then overrideOf bytes (entry bytes n) else ⟨irq, 0, 0⟩

theorem redirect_result_iff :
    (∃ fuel x, redirectWalk bytes length irq fuel = some x ∧ Redirects bytes length irq x.2) ↔
      ∃ n, Ends (entryLength bytes) (isOverride bytes irq) (walkEnd length) fixedPart n ∧
      Redirects bytes length irq (resultAt bytes length irq n) := by
  unfold redirectWalk
  rw [walk_iff (redirectReads bytes irq) (redirectVisit bytes irq) ⟨irq, 0, 0⟩
    fun _ r => Redirects bytes length irq r]
  apply exists_congr
  intro n
  apply and_congr_right
  intro hends
  have hvisit : ∀ curr r, isOverride bytes irq curr = false → redirectVisit bytes irq curr r = r := by
    intro curr r h
    simp [redirectVisit, h]
  rw [foldl_visited hends _ hvisit, resultAt]
  unfold entry
  split_ifs with hlt
  · rw [redirectVisit, if_pos (hends.here.resolve_left (by omega))]
  · rfl

theorem redirect_right_iff :
    (∃ fuel x, redirectWalk bytes length irq fuel = some x ∧ Redirects bytes length irq x.2) ↔
      RedirectFits bytes length irq := by
  rw [redirect_result_iff]
  by_cases hfirst : ∃ m, FirstOverride bytes length irq m
  · obtain ⟨m, hm⟩ := hfirst
    have hresult : resultAt bytes length irq m = overrideOf bytes (entry bytes m) :=
      if_pos (hm.inside.trans_le (Nat.le_add_left _ _))
    constructor
    · rintro ⟨n, hends, ⟨k, hk, hsays⟩ | ⟨hnone, -⟩⟩
      · obtain rfl := hends.unique hm.ends
        obtain rfl := hk.ends.unique hm.ends
        rw [hresult] at hsays
        exact .inl ⟨_, hm, (says_overrideOf_iff _).mp hsays⟩
      · exact absurd hm (hnone m)
    · rintro (⟨n, hn, hgsi⟩ | ⟨hnone, -⟩)
      · obtain rfl := hn.ends.unique hm.ends
        exact ⟨_, hm.ends, .inl ⟨_, hm, by rw [hresult]; exact (says_overrideOf_iff _).mpr hgsi⟩⟩
      · exact absurd hm (hnone m)
  · have hnone : ∀ n, ¬FirstOverride bytes length irq n := fun n hn => hfirst ⟨n, hn⟩
    have hresult : ∀ n, resultAt bytes length irq n = ⟨irq, 0, 0⟩ ↔
        walkEnd length ≤ entry bytes n ∨ overrideOf bytes (entry bytes n) = ⟨irq, 0, 0⟩ := by
      intro n
      unfold resultAt
      split_ifs with hlt
      · simp [hlt]
      · simp [Nat.le_of_not_lt hlt]
    constructor
    · rintro ⟨n, hends, ⟨k, hk, -⟩ | ⟨-, hr⟩⟩
      · exact absurd hk (hnone k)
      · exact .inr ⟨hnone, n, hends, (hresult n).mp hr⟩
    · rintro (⟨n, hn, -⟩ | ⟨-, n, hends, hr⟩)
      · exact absurd hn (hnone n)
      · exact ⟨n, hends, .inr ⟨hnone, (hresult n).mpr hr⟩⟩

end Walks

/-- A table with one I/O APIC, and zeros behind it. -/
def oneIoapic (i : ℕ) : BitVec 8 := if i = 44 then 1 else if i = 45 then 12 else 0

theorem entry_oneIoapic (n : ℕ) : entry oneIoapic n ≤ 56 := by
  cases n with
  | zero => decide
  | succ n =>
    have hbehind : ∀ n, entry oneIoapic (n + 1) = 56 := by
      intro n
      induction n with
      | zero => decide
      | succ n ih =>
        rw [entry, position_succ, ← entry, ih]
        decide
    exact (hbehind n).le

end DualFuse.Cpu.Madt
