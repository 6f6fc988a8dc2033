import DualFuse.Library.Execution

/-! The assignment of interrupt vectors to global system interrupts (`cpu/apic.cpp`).
`irqPerCoreAllocate` records each interrupt in the next slot of a table and answers a
later request for it from the table. The identifier of the boot processor's local APIC
is an input of each request. -/

namespace DualFuse.Cpu

open Library

def maxIrq : ℕ := 256

/-- The vector that `initiateAPIC` writes to the spurious interrupt register. -/
def spuriousVector : UInt8 := 0xff

structure IrqTable where
  irqLast : ℕ
  irqGenericArray : ℕ → UInt8
  lapicGenericArray : ℕ → UInt32
  irqPerCpu : UInt8

namespace IrqTable

def start : IrqTable := ⟨0, fun _ => 0, fun _ => 0, 0⟩

/-- The search for an interrupt among `n` slots from `i` on. -/
def irqFind (t : IrqTable) (gsi : UInt8) : ℕ → ℕ → Exec (Option ℕ)
  | 0, _ => .ok none
  | n + 1, i =>
    if maxIrq ≤ i then .error .fault
    else if t.irqGenericArray i = gsi then .ok (some i)
    else t.irqFind gsi n (i + 1)

/-- `while (irqLast == 0xff) irqLast++`. -/
def skipSpurious (t : IrqTable) : ℕ := if t.irqLast = 0xff then t.irqLast + 1 else t.irqLast

/-- The table after a new interrupt took slot `index`. The only core's count is set to
`MAX_IRQ`, which its byte does not hold, and then raised. -/
def record (t : IrqTable) (index : ℕ) (gsi bspId : UInt8) : IrqTable where
  irqLast := index + 1
  irqGenericArray := Function.update t.irqGenericArray index gsi
  lapicGenericArray := Function.update t.lapicGenericArray index bspId.toUInt32
  irqPerCpu := (if t.irqPerCpu.toNat < maxIrq then UInt8.ofNat maxIrq else t.irqPerCpu) + 1

/-- The vector of an interrupt that is new in slot `index`. -/
def newVector (index : ℕ) (gsi : UInt8) : UInt8 :=
  if gsi < 16 then 32 + gsi else UInt8.ofNat (index + 32)

/-- The vector and the local APIC that the caller gets. -/
def irqPerCoreAllocate (t : IrqTable) (gsi bspId : UInt8) : Exec (IrqTable × UInt8 × UInt32) := do
  match ← t.irqFind gsi t.irqLast 0 with
  | some i => .ok (t, UInt8.ofNat (32 + i), t.lapicGenericArray i)
  | none =>
    let index := t.skipSpurious
    if index > maxIrq - 1 then .error .halt
    else .ok (t.record index gsi bspId, newVector index gsi, bspId.toUInt32)

/-- The search stays inside the table and finds a slot of the interrupt exactly when there is one. -/
theorem irqFind_meets (t : IrqTable) (gsi : UInt8) (n i : ℕ) (h : i + n ≤ maxIrq) :
    ∃ r, t.irqFind gsi n i = .ok r ∧
      match r with
      | some j => j < i + n ∧ t.irqGenericArray j = gsi
      | none => ∀ j, i ≤ j → j < i + n → t.irqGenericArray j ≠ gsi := by
  induction n generalizing i with
  | zero => exact ⟨none, rfl, fun j h₁ h₂ => by omega⟩
  | succ n ih =>
    unfold irqFind
    rw [if_neg (by omega)]
    by_cases hi : t.irqGenericArray i = gsi
    · rw [if_pos hi]
      exact ⟨some i, rfl, by omega, hi⟩
    · rw [if_neg hi]
      obtain ⟨r, hr, hspec⟩ := ih (i + 1) (by omega)
      refine ⟨r, hr, ?_⟩
      cases r with
      | some j => exact ⟨by have := hspec.1; omega, hspec.2⟩
      | none =>
        intro j h₁ h₂
        rcases Nat.eq_or_lt_of_le h₁ with rfl | hlt
        · exact hi
        · exact hspec j hlt (by omega)

end IrqTable

structure IrqRequest where
  gsi : UInt8
  bspId : UInt8
  deriving DecidableEq, Repr

/-- The table, and each request made so far with the vector it returned. -/
structure IrqRun where
  table : IrqTable
  returned : List (UInt8 × UInt8)

namespace IrqRun

open IrqTable

def start : IrqRun := ⟨IrqTable.start, []⟩

def request (s : IrqRun) (r : IrqRequest) : Exec IrqRun := do
  let (table, vector, _) ← s.table.irqPerCoreAllocate r.gsi r.bspId
  .ok ⟨table, (r.gsi, vector) :: s.returned⟩

/-- Each interrupt has one vector, different interrupts have different ones, and every vector
lies from 32 on below the spurious one. -/
def VectorsAgree (returned : List (UInt8 × UInt8)) : Prop :=
  (∀ c ∈ returned, ∀ d ∈ returned, c.1 = d.1 ↔ c.2 = d.2) ∧
    ∀ c ∈ returned, 32 ≤ c.2 ∧ c.2 ≠ spuriousVector

instance (returned : List (UInt8 × UInt8)) : Decidable (VectorsAgree returned) :=
  inferInstanceAs (Decidable (_ ∧ _))

/-- What a request of `gsi` needs of the table. An interrupt below 16 that is recorded is in the
slot of its own number. The slot of a new one's number is not held by an interrupt from 16 on. A
new interrupt from 16 on takes a slot below 223 whose number is not itself a recorded interrupt
below 16. -/
def Fits (t : IrqTable) (gsi : UInt8) : Prop :=
  (∀ i < t.irqLast, t.irqGenericArray i = gsi → gsi < 16 → i = gsi.toNat) ∧
    ((∀ i < t.irqLast, t.irqGenericArray i ≠ gsi) → t.irqLast < 0xff →
      if gsi < 16 then gsi.toNat < t.irqLast → t.irqGenericArray gsi.toNat < 16
      else t.irqLast < 223 ∧
        ∀ i < t.irqLast, t.irqGenericArray i < 16 → (t.irqGenericArray i).toNat ≠ t.irqLast)

theorem low_iff (g : UInt8) : g < 16 ↔ g.toNat < 16 := UInt8.lt_iff_toNat_lt

theorem newVector_toNat (i : ℕ) (g : UInt8) :
    (newVector i g).toNat = if g.toNat < 16 then 32 + g.toNat else (i + 32) % 256 := by
  unfold newVector
  by_cases hg : g.toNat < 16
  · rw [if_pos ((low_iff g).mpr hg), if_pos hg, UInt8.toNat_add]
    simp only [UInt8.reduceToNat]
    omega
  · rw [if_neg (fun h => hg ((low_iff g).mp h)), if_neg hg]
    rfl

/-- What a request does that returns. -/
theorem request_cases {s s' : IrqRun} {r : IrqRequest} (hbound : s.table.irqLast ≤ 0xff)
    (h : s.request r = .ok s') :
    (∃ i < s.table.irqLast, s.table.irqGenericArray i = r.gsi ∧
      s' = ⟨s.table, (r.gsi, UInt8.ofNat (32 + i)) :: s.returned⟩) ∨
    ((∀ i < s.table.irqLast, s.table.irqGenericArray i ≠ r.gsi) ∧ s.table.irqLast < 0xff ∧
      s' = ⟨s.table.record s.table.irqLast r.gsi r.bspId,
        (r.gsi, newVector s.table.irqLast r.gsi) :: s.returned⟩) := by
  obtain ⟨found, hfind, hspec⟩ := s.table.irqFind_meets r.gsi s.table.irqLast 0 (by unfold maxIrq; omega)
  unfold request irqPerCoreAllocate at h
  rw [hfind, Exec.ok_bind] at h
  cases found with
  | some i =>
    cases h
    exact .inl ⟨i, by have := hspec.1; omega, hspec.2, rfl⟩
  | none =>
    have hnew : ∀ i < s.table.irqLast, s.table.irqGenericArray i ≠ r.gsi :=
      fun i hi => hspec i (by omega) (by omega)
    by_cases hlast : s.table.irqLast = 0xff
    · simp [skipSpurious, hlast, maxIrq] at h
    · have hskip : s.table.skipSpurious = s.table.irqLast := if_neg hlast
      have hlt : ¬ s.table.irqLast > maxIrq - 1 := by unfold maxIrq; omega
      simp only [hskip, if_neg hlt, Exec.ok_bind] at h
      cases h
      exact .inr ⟨hnew, by omega, rfl⟩

/-- A request that does not return finds the table full and halts the system. -/
theorem request_stops {s : IrqRun} {r : IrqRequest} {e : Stop} (hbound : s.table.irqLast ≤ 0xff)
    (h : s.request r = .error e) :
    e = .halt ∧ (∀ i < s.table.irqLast, s.table.irqGenericArray i ≠ r.gsi) ∧ s.table.irqLast = 0xff := by
  obtain ⟨found, hfind, hspec⟩ := s.table.irqFind_meets r.gsi s.table.irqLast 0 (by unfold maxIrq; omega)
  unfold request irqPerCoreAllocate at h
  rw [hfind, Exec.ok_bind] at h
  cases found with
  | some i => cases h
  | none =>
    by_cases hfull : s.table.skipSpurious > maxIrq - 1
    · simp only [if_pos hfull, Exec.error_bind] at h
      cases h
      refine ⟨rfl, fun i hi => hspec i (by omega) (by omega), ?_⟩
      unfold skipSpurious maxIrq at hfull
      split_ifs at hfull with hlast
      · exact hlast
      · omega
    · simp only [if_neg hfull, Exec.ok_bind] at h
      cases h

/-- The answers given so far are those of the recorded interrupts. -/
structure Matched (s : IrqRun) : Prop where
  bound : s.table.irqLast ≤ 0xff
  distinct : ∀ i < s.table.irqLast, ∀ j < s.table.irqLast,
    s.table.irqGenericArray i = s.table.irqGenericArray j → i = j
  recorded : ∀ c ∈ s.returned, ∃ i < s.table.irqLast,
    c = (s.table.irqGenericArray i, newVector i (s.table.irqGenericArray i))
  returned : ∀ i < s.table.irqLast,
    (s.table.irqGenericArray i, newVector i (s.table.irqGenericArray i)) ∈ s.returned
  agree : VectorsAgree s.returned

theorem matched_start : Matched start where
  bound := by decide
  distinct := fun i hi => absurd hi (by simp [start, IrqTable.start])
  recorded := fun c hc => by simp [start] at hc
  returned := fun i hi => absurd hi (by simp [start, IrqTable.start])
  agree := ⟨by simp [start], by simp [start]⟩

theorem VectorsAgree.cons {c : UInt8 × UInt8} {l : List (UInt8 × UInt8)} (h : VectorsAgree l)
    (hc : 32 ≤ c.2 ∧ c.2 ≠ spuriousVector) (hl : ∀ d ∈ l, c.1 = d.1 ↔ c.2 = d.2) : VectorsAgree (c :: l) := by
  constructor
  · intro a ha b hb
    rcases List.mem_cons.mp ha with ha | ha <;> rcases List.mem_cons.mp hb with hb | hb
    · rw [ha, hb]
      exact ⟨fun _ => rfl, fun _ => rfl⟩
    · rw [ha]
      exact hl b hb
    · rw [hb, eq_comm, hl a ha, eq_comm]
    · exact h.1 a ha b hb
  · intro a ha
    rcases List.mem_cons.mp ha with rfl | ha
    · exact hc
    · exact h.2 a ha

/-- The table's vector for slot `i` is the one first returned for it exactly where an interrupt
below 16 is in the slot of its own number. -/
theorem slot_vector_iff {i : ℕ} {g : UInt8} (hi : i < 0xff) :
    UInt8.ofNat (32 + i) = newVector i g ↔ (g < 16 → i = g.toNat) := by
  rw [← UInt8.toNat_inj, newVector_toNat, low_iff]
  simp only [UInt8.toNat_ofNat']
  by_cases hg : g.toNat < 16
  · rw [if_pos hg]
    omega
  · rw [if_neg hg]
    omega

theorem vector_fits_iff {v : UInt8} : (32 ≤ v ∧ v ≠ spuriousVector) ↔ 32 ≤ v.toNat ∧ v.toNat < 255 := by
  have hv := v.toNat_lt
  rw [UInt8.le_iff_toNat_le, ne_eq, ← UInt8.toNat_inj]
  simp only [spuriousVector, UInt8.reduceToNat]
  omega

/-- The vector of a new interrupt is allowed and not in use exactly where the request fits. -/
theorem Matched.fits_new_iff {s : IrqRun} (h : Matched s) {gsi : UInt8}
    (hnew : ∀ i < s.table.irqLast, s.table.irqGenericArray i ≠ gsi) (hlast : s.table.irqLast < 0xff) :
    Fits s.table gsi ↔
      (32 ≤ newVector s.table.irqLast gsi ∧ newVector s.table.irqLast gsi ≠ spuriousVector) ∧
        ∀ j < s.table.irqLast, newVector j (s.table.irqGenericArray j) ≠ newVector s.table.irqLast gsi := by
  -- a slot of an interrupt from 16 on is below 223, as its vector is allowed
  have hslot : ∀ j < s.table.irqLast,
      (newVector j (s.table.irqGenericArray j)).toNat = if (s.table.irqGenericArray j).toNat < 16
        then 32 + (s.table.irqGenericArray j).toNat else j + 32 := by
    intro j hj
    have hrange := vector_fits_iff.mp (h.agree.2 _ (h.returned j hj))
    rw [newVector_toNat] at hrange ⊢
    split_ifs at hrange ⊢ <;> omega
  have hne : ∀ j < s.table.irqLast, (s.table.irqGenericArray j).toNat ≠ gsi.toNat :=
    fun j hj heq => hnew j hj (UInt8.toNat_inj.mp heq)
  have hfits : Fits s.table gsi ↔
      if gsi < 16 then gsi.toNat < s.table.irqLast → s.table.irqGenericArray gsi.toNat < 16
      else s.table.irqLast < 223 ∧ ∀ i < s.table.irqLast,
        s.table.irqGenericArray i < 16 → (s.table.irqGenericArray i).toNat ≠ s.table.irqLast :=
    ⟨fun hfits => hfits.2 hnew hlast, fun hcond => ⟨fun i hi heq => absurd heq (hnew i hi), fun _ _ => hcond⟩⟩
  rw [hfits, vector_fits_iff]
  have hvector := newVector_toNat s.table.irqLast gsi
  by_cases hg : gsi.toNat < 16
  · rw [if_pos ((low_iff _).mpr hg)]
    rw [if_pos hg] at hvector
    constructor
    · intro hfree
      refine ⟨by omega, fun j hj heq => ?_⟩
      have heq := congrArg UInt8.toNat heq
      rw [hslot j hj, hvector] at heq
      split_ifs at heq with hj16
      · exact hne j hj (by omega)
      · have hjg : j = gsi.toNat := by omega
        subst hjg
        exact hj16 ((low_iff _).mp (hfree hj))
    · rintro ⟨-, hfresh⟩ hlt
      by_contra hhigh
      refine hfresh _ hlt (UInt8.toNat_inj.mp ?_)
      rw [hslot _ hlt, hvector, if_neg (fun hlow => hhigh ((low_iff _).mpr hlow))]
      omega
  · rw [if_neg (fun hlow => hg ((low_iff _).mp hlow))]
    rw [if_neg hg] at hvector
    constructor
    · rintro ⟨hroom, hfree⟩
      refine ⟨by omega, fun j hj heq => ?_⟩
      have heq := congrArg UInt8.toNat heq
      rw [hslot j hj, hvector] at heq
      split_ifs at heq with hj16
      · exact hfree j hj ((low_iff _).mpr hj16) (by omega)
      · omega
    · rintro ⟨hrange, hfresh⟩
      refine ⟨by omega, fun j hj hlow heq => hfresh j hj (UInt8.toNat_inj.mp ?_)⟩
      rw [hslot j hj, hvector, if_pos ((low_iff _).mp hlow)]
      omega

theorem Matched.recorded_again {s : IrqRun} (h : Matched s) {i : ℕ} (hi : i < s.table.irqLast) :
    Fits s.table (s.table.irqGenericArray i) ↔
      UInt8.ofNat (32 + i) = newVector i (s.table.irqGenericArray i) := by
  have hbound := h.bound
  rw [slot_vector_iff (by omega)]
  constructor
  · intro hfits
    exact hfits.1 i hi rfl
  · intro hown
    refine ⟨fun j hj heq => ?_, fun hnew => absurd rfl (hnew i hi)⟩
    rw [h.distinct j hj i hi heq]
    exact hown

/-- A request that fits keeps the answers those of the table. -/
theorem Matched.of_request {s s' : IrqRun} {r : IrqRequest} (h : Matched s) (hfits : Fits s.table r.gsi)
    (hok : s.request r = .ok s') : Matched s' := by
  rcases request_cases h.bound hok with ⟨i, hi, hgsi, rfl⟩ | ⟨hnew, hlast, rfl⟩
  · have hmem : (r.gsi, UInt8.ofNat (32 + i)) ∈ s.returned := by
      rw [← hgsi] at hfits ⊢
      rw [(h.recorded_again hi).mp hfits]
      exact h.returned i hi
    refine ⟨h.bound, h.distinct, ?_, fun j hj => List.mem_cons_of_mem _ (h.returned j hj), ?_⟩
    · intro c hc
      rcases List.mem_cons.mp hc with rfl | hc
      · exact h.recorded _ hmem
      · exact h.recorded c hc
    · exact h.agree.cons (h.agree.2 _ hmem) (fun d hd => h.agree.1 _ hmem d hd)
  · obtain ⟨hrange, hfresh⟩ := (h.fits_new_iff hnew hlast).mp hfits
    have hold : ∀ j < s.table.irqLast,
        (s.table.record s.table.irqLast r.gsi r.bspId).irqGenericArray j = s.table.irqGenericArray j :=
      fun j hj => Function.update_of_ne (by omega) _ _
    have hself : (s.table.record s.table.irqLast r.gsi r.bspId).irqGenericArray s.table.irqLast = r.gsi :=
      Function.update_self _ _ _
    refine ⟨?_, ?_, ?_, ?_, ?_⟩
    · change s.table.irqLast + 1 ≤ 0xff
      omega
    · intro i hi j hj heq
      change i < s.table.irqLast + 1 at hi
      change j < s.table.irqLast + 1 at hj
      rcases Nat.lt_succ_iff_lt_or_eq.mp hi with hi | rfl <;> rcases Nat.lt_succ_iff_lt_or_eq.mp hj with hj | rfl
      · change _ = (s.table.record _ _ _).irqGenericArray j at heq
        rw [hold i hi, hold j hj] at heq
        exact h.distinct i hi j hj heq
      · change (s.table.record _ _ _).irqGenericArray i = (s.table.record _ _ _).irqGenericArray _ at heq
        rw [hold i hi, hself] at heq
        exact absurd heq (hnew i hi)
      · change (s.table.record _ _ _).irqGenericArray _ = (s.table.record _ _ _).irqGenericArray j at heq
        rw [hold j hj, hself] at heq
        exact absurd heq.symm (hnew j hj)
      · rfl
    · intro c hc
      rcases List.mem_cons.mp hc with rfl | hc
      · refine ⟨s.table.irqLast, Nat.lt_succ_self _, ?_⟩
        change _ = ((s.table.record _ _ _).irqGenericArray _, newVector _ ((s.table.record _ _ _).irqGenericArray _))
        rw [hself]
      · obtain ⟨i, hi, rfl⟩ := h.recorded c hc
        refine ⟨i, Nat.lt_succ_of_lt hi, ?_⟩
        change _ = ((s.table.record _ _ _).irqGenericArray _, newVector _ ((s.table.record _ _ _).irqGenericArray _))
        rw [hold i hi]
    · intro i hi
      change i < s.table.irqLast + 1 at hi
      change ((s.table.record _ _ _).irqGenericArray _, newVector _ ((s.table.record _ _ _).irqGenericArray _)) ∈ _
      rcases Nat.lt_succ_iff_lt_or_eq.mp hi with hi | rfl
      · rw [hold i hi]
        exact List.mem_cons_of_mem _ (h.returned i hi)
      · rw [hself]
        exact List.mem_cons_self
    · refine h.agree.cons hrange (fun d hd => ?_)
      obtain ⟨j, hj, rfl⟩ := h.recorded d hd
      exact iff_of_false (fun heq => hnew j hj heq.symm) (fun heq => hfresh j hj heq.symm)

/-- A request whose answer agrees with the earlier ones fits. -/
theorem Matched.fits {s s' : IrqRun} {r : IrqRequest} (h : Matched s) (hok : s.request r = .ok s')
    (hagree : VectorsAgree s'.returned) : Fits s.table r.gsi := by
  rcases request_cases h.bound hok with ⟨i, hi, hgsi, rfl⟩ | ⟨hnew, hlast, rfl⟩
  · rw [← hgsi] at hagree ⊢
    refine (h.recorded_again hi).mpr ?_
    exact (hagree.1 _ List.mem_cons_self _ (List.mem_cons_of_mem _ (h.returned i hi))).mp rfl
  · refine (h.fits_new_iff hnew hlast).mpr ⟨hagree.2 _ List.mem_cons_self, fun j hj heq => hnew j hj ?_⟩
    exact (hagree.1 _ (List.mem_cons_of_mem _ (h.returned j hj)) _ List.mem_cons_self).mpr heq

theorem Matched.fits_of_stops {s : IrqRun} {r : IrqRequest} {e : Stop} (h : Matched s)
    (hstop : s.request r = .error e) : Fits s.table r.gsi := by
  obtain ⟨-, hnew, hfull⟩ := request_stops h.bound hstop
  exact ⟨fun i hi heq => absurd heq (hnew i hi), fun _ hlast => by omega⟩

/-- After every part of the run the vectors agree and no slot past the table was taken,
unless the system was halted. -/
def VectorsAssigned (requests : List IrqRequest) : Prop :=
  Throughout request (fun e => e = .halt)
    (fun s => VectorsAgree s.returned ∧ s.table.irqLast ≤ maxIrq) start requests

/-- The vectors of a sequence of requests agree exactly when each request fits the table it
meets. -/
theorem vectors_assigned_iff (requests : List IrqRequest) :
    VectorsAssigned requests ↔ Guarded request (fun s r => Fits s.table r.gsi) start requests := by
  refine throughout_iff_guarded (fun s h => ⟨h.agree, h.bound.trans (by decide)⟩) ?_ ?_ matched_start
  · intro s r _ h hfits
    cases hr : s.request r with
    | error e => exact (request_stops h.bound hr).1
    | ok s' => exact h.of_request hfits hr
  · intro s r _ h hmeets
    cases hr : s.request r with
    | error e => exact h.fits_of_stops hr
    | ok s' =>
      rw [hr] at hmeets
      exact h.fits hr hmeets.1

/-- The keyboard's interrupt is recorded in slot 0 with vector 33; asked for again, it has vector 32. -/
theorem keyboard_requested_twice : ¬ VectorsAssigned [⟨1, 0⟩, ⟨1, 0⟩] := by
  intro h
  have hend := h [⟨1, 0⟩, ⟨1, 0⟩] [] rfl
  revert hend
  decide +kernel

end IrqRun

end DualFuse.Cpu
