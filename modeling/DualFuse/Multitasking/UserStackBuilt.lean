import DualFuse.Multitasking.UserStack

/-! What `stackGenerateUser` leaves. It gets through if and only if the heap is mapped where it
stores to it, and then the task is the one that all the stores and pushes make. -/

namespace DualFuse.Multitasking

open Library Utility Memory PagedBytes

/-! ### Pages -/

theorem mapPages_mapped (m : PagedBytes) (start n a : ℕ) :
    ((List.range n).foldl (fun m i => mapPage m (start + i * 0x1000)) m).mapped a = true ↔
      (start ≤ a ∧ a < start + n * 0x1000) ∨ m.mapped a = true := by
  induction n with
  | zero =>
    rw [List.range_zero, List.foldl_nil]
    exact (or_iff_right (by omega)).symm
  | succ n ih =>
    rw [List.range_succ, List.foldl_append, List.foldl_cons, List.foldl_nil, mapPage]
    rw [Bool.or_eq_true, ih, Bool.and_eq_true, decide_eq_true_eq, decide_eq_true_eq, ← or_assoc]
    refine or_congr_left ?_
    unfold pageSize
    omega

/-- The lowest address of the stack. -/
def stackLow : ℕ := userStackBottom - userStackPages * 0x1000

theorem stackGenerateMutual_mapped (m : PagedBytes) (a : ℕ) :
    (stackGenerateMutual m).mapped a = true ↔ (stackLow ≤ a ∧ a < userStackBottom) ∨ m.mapped a = true :=
  mapPages_mapped m stackLow userStackPages a

/-! ### The heap -/

variable {hhdmOffset : ℕ} {t t' : Target} {ws vs : List ℕ} {l argv envv : List CStr}

/-- A page of user space counts as mapped. -/
theorem virtualToPhysical_user_ne (hlow : 2 ^ 47 ≤ hhdmOffset) (hhigh : hhdmOffset < 2 ^ 64) {virt : ℕ}
    (h : virt < 2 ^ 47) : virtualToPhysical hhdmOffset (address virt) ≠ 0 := by
  intro hzero
  have heq := congrArg BitVec.toNat hzero
  rw [virtualToPhysical, address, address, BitVec.toNat_sub, BitVec.toNat_ofNat, BitVec.toNat_ofNat] at heq
  have hne : (2 ^ 64 - hhdmOffset % 2 ^ 64 + virt % 2 ^ 64) % 2 ^ 64 ≠ 0 := by omega
  exact hne heq

/-- Growing the heap moves its end only. -/
theorem taskAdjustHeap_eq (hlow : 2 ^ 47 ≤ hhdmOffset) (hhigh : hhdmOffset < 2 ^ 64) {newHeapEnd : ℕ}
    (hstart : t.heapStart < newHeapEnd) (hend : t.heapEnd ≤ newHeapEnd) (huser : newHeapEnd ≤ 2 ^ 47) :
    t.taskAdjustHeap hhdmOffset newHeapEnd = { t with heapEnd := newHeapEnd } := by
  have htop (bound : ℕ) (hbound : bound ≤ 2 ^ 47) : pageTop bound = (bound + 4095) / 4096 := by
    unfold pageTop pageSize
    rw [ceilingDivision_eq (by decide) (by omega)]
    omega
  have hnew := htop newHeapEnd huser
  have hold := htop t.heapEnd (hend.trans huser)
  unfold Target.taskAdjustHeap
  rw [if_neg (by omega)]
  split_ifs with hgrow hshrink
  · dsimp only
    have hsame (n : ℕ) (hn : n ≤ pageTop newHeapEnd - pageTop t.heapEnd) :
        (List.range n).foldl (fun m i =>
          if virtualToPhysical hhdmOffset (address (pageTop t.heapEnd * pageSize + i * pageSize)) ≠ 0 then m
          else mapPage m (pageTop t.heapEnd * pageSize + i * pageSize)) t.memory = t.memory := by
      induction n with
      | zero => rfl
      | succ n ih =>
        rw [List.range_succ, List.foldl_append, ih (by omega), List.foldl_cons, List.foldl_nil, if_pos]
        refine virtualToPhysical_user_ne hlow hhigh ?_
        unfold pageSize
        omega
    rw [hsame _ le_rfl]
  · omega
  · rfl

/-! ### The steps -/

/-- The bytes that a list of strings takes. -/
def total (l : List CStr) : ℕ := (l.map CStr.size).sum

/-- `ellapsed` for a list of strings. -/
def ellapsed (l : List CStr) : ℤ := wrapInt (wrap (l.map CStr.len).sum)

/-- What is copied of each string. -/
def cut (l : List CStr) : List (List (BitVec 8)) := l.map fun s => s.terminated.take s.len

namespace Target

def pushed (t : Target) (ws : List ℕ) : Target :=
  { t with
    memory := t.memory.written (t.usermodeRsp - 8 * ws.length) (encode ws.reverse)
    usermodeRsp := t.usermodeRsp - 8 * ws.length }

def stored (t : Target) (l : List CStr) : Target :=
  { t with
    memory := t.memory.written t.heapEnd (cut l).flatten
    heapEnd := t.heapEnd + total l % 2 ^ 32 }

theorem push_ok_iff (h : 8 * ws.length ≤ t.usermodeRsp) :
    t.push ws = .ok t' ↔ t.memory.Ready (t.usermodeRsp - 8 * ws.length) (8 * ws.length) ∧ t' = t.pushed ws := by
  rw [push, Exec.bind_ok_iff]
  constructor
  · rintro ⟨⟨memory, rsp⟩, hpush, heq⟩
    obtain ⟨hready, rfl, rfl⟩ := (pushAll_ok_iff h).mp hpush
    exact ⟨hready, (Except.ok.inj heq).symm⟩
  · rintro ⟨hready, rfl⟩
    exact ⟨_, (pushAll_ok_iff h).mpr ⟨hready, rfl, rfl⟩, rfl⟩

theorem pushed_nil (t : Target) : t.pushed [] = t := by
  unfold pushed
  rw [List.reverse_nil, encode, List.flatMap_nil, written, write_nil]
  rfl

theorem pushed_pushed (h : 8 * (ws.length + vs.length) ≤ t.usermodeRsp) :
    (t.pushed ws).pushed vs = t.pushed (ws ++ vs) := by
  have hplace : t.usermodeRsp - 8 * ws.length - 8 * vs.length = t.usermodeRsp - 8 * (ws ++ vs).length := by
    rw [List.length_append]
    omega
  have htop : t.usermodeRsp - 8 * (ws ++ vs).length + 8 * vs.length = t.usermodeRsp - 8 * ws.length := by
    rw [List.length_append]
    omega
  unfold pushed
  dsimp only
  rw [hplace, written, mapped_written, bytes_written, written, List.reverse_append, encode_append, write_append',
    length_encode, List.length_reverse, htop]

theorem stored_nil (t : Target) : t.stored [] = t := by
  unfold stored
  rw [cut, List.map_nil, List.flatten_nil, written, write_nil]
  rfl

end Target

theorem stackStorePtrStyle_ok_iff (hlow : 2 ^ 47 ≤ hhdmOffset) (hhigh : hhdmOffset < 2 ^ 64)
    (hstart : t.heapStart < t.heapEnd) (huser : t.heapEnd + 2 ^ 32 ≤ 2 ^ 47) {p : Stored} :
    stackStorePtrStyle hhdmOffset t l = .ok (t', p) ↔
      t.memory.Ready t.heapEnd (cut l).flatten.length ∧ t' = t.stored l ∧
        p = ⟨t.heapEnd, ellapsed l⟩ := by
  have hspace : total l % 2 ^ 32 < 2 ^ 32 := Nat.mod_lt _ (by decide)
  have hend : wrap (t.heapEnd + total l % 2 ^ 32) = t.heapEnd + total l % 2 ^ 32 := wrap_of_lt (by omega)
  have hadjust : t.taskAdjustHeap hhdmOffset (t.heapEnd + total l % 2 ^ 32) =
      { t with heapEnd := t.heapEnd + total l % 2 ^ 32 } :=
    taskAdjustHeap_eq hlow hhigh (by omega) (by omega) (by omega)
  unfold stackStorePtrStyle
  dsimp only
  rw [show (l.map CStr.size).sum = total l from rfl, hend, hadjust, Exec.bind_ok_iff]
  constructor
  · rintro ⟨memory, hcopy, heq⟩
    obtain ⟨hready, rfl⟩ := copyAll_ok_iff.mp hcopy
    cases heq
    exact ⟨hready, rfl, rfl⟩
  · rintro ⟨hready, rfl, rfl⟩
    exact ⟨_, copyAll_ok_iff.mpr ⟨hready, rfl⟩, rfl⟩

/-! ### The whole run -/

theorem length_randomBytes (random : Fin 4 → BitVec 32) : (randomBytes random).flatten.length = 16 := by
  simp [randomBytes, List.ofFn_succ]

/-- The pointers that are pushed for the environment. -/
def envPushes (envv : List CStr) (start : ℕ) : List ℕ :=
  if ellapsed envv > 0 then finalPointers ⟨start, ellapsed envv⟩ 0 envv.reverse else []

theorem length_finalPointers (stored : Stored) (f : ℕ) (l : List CStr) :
    (finalPointers stored f l).length = l.length := by
  induction l generalizing f with
  | nil => rfl
  | cons s l ih => rw [finalPointers, List.length_cons, ih, List.length_cons]

/-- The words that are pushed behind the strings. -/
def lastPushes (argv envv : List CStr) : List ℕ :=
  [0] ++ envPushes envv (userHeapStart + 16 + total argv % 2 ^ 32) ++ [0] ++
    finalPointers ⟨userHeapStart + 16, ellapsed argv⟩ 0 argv.reverse ++ [argv.length]

section Run
variable (random : Fin 4 → BitVec 32) (elf : ElfFields) (atBase executableBase : ℕ) (memory : PagedBytes)

/-- The task behind the random numbers. -/
def begun : Target :=
  ⟨(stackGenerateMutual memory).written userHeapStart (randomBytes random).flatten, userStackBottom, userHeapStart,
    userHeapStart + 16, false⟩

/-- The task at the end. -/
def built (argv envv : List CStr) : Target :=
  ((((begun random memory).pushed (auxPushes elf userHeapStart atBase executableBase)).stored argv).stored envv).pushed
    (lastPushes argv envv)

variable {random elf atBase executableBase memory}

theorem length_auxPushes (elf : ElfFields) (a b c : ℕ) : (auxPushes elf a b c).length = 22 := rfl

theorem length_envPushes_le (envv : List CStr) (start : ℕ) : (envPushes envv start).length ≤ envv.length := by
  unfold envPushes
  split_ifs
  · rw [length_finalPointers, List.length_reverse]
  · exact Nat.zero_le _

theorem length_lastPushes (argv envv : List CStr) :
    (lastPushes argv envv).length =
      3 + argv.length + (envPushes envv (userHeapStart + 16 + total argv % 2 ^ 32)).length := by
  simp only [lastPushes, List.length_append, List.length_cons, List.length_nil, length_finalPointers,
    List.length_reverse]
  omega

/-- The pages of the stack are there. -/
theorem ready_stack (m : PagedBytes) {a n : ℕ} (hlow : stackLow ≤ a) (hhigh : a + n ≤ userStackBottom) :
    (stackGenerateMutual m).Ready a n :=
  fun i hi => (stackGenerateMutual_mapped m (a + i)).mpr (Or.inl ⟨by omega, by omega⟩)

/-- Words are pushed on a stack that has room for them. -/
theorem push_eq (hmapped : t.memory.mapped = (stackGenerateMutual memory).mapped)
    (hroom : stackLow + 8 * ws.length ≤ t.usermodeRsp) (htop : t.usermodeRsp ≤ userStackBottom) :
    t.push ws = .ok (t.pushed ws) := by
  refine (Target.push_ok_iff (by omega)).mpr ⟨?_, rfl⟩
  have hready := ready_stack memory (a := t.usermodeRsp - 8 * ws.length) (n := 8 * ws.length) (by omega) (by omega)
  intro i hi
  rw [hmapped]
  exact hready i hi

/-- Pushes behind other pushes. -/
theorem pushed_push (hmapped : t.memory.mapped = (stackGenerateMutual memory).mapped)
    (hroom : stackLow + 8 * (ws.length + vs.length) ≤ t.usermodeRsp) (htop : t.usermodeRsp ≤ userStackBottom) :
    (t.pushed ws).push vs = .ok (t.pushed (ws ++ vs)) := by
  have hpush : (t.pushed ws).push vs = .ok ((t.pushed ws).pushed vs) := by
    refine push_eq (t := t.pushed ws) hmapped ?_ ?_
    · dsimp only [Target.pushed]
      omega
    · dsimp only [Target.pushed]
      omega
  rw [hpush, Target.pushed_pushed (by omega)]

/-- What the run needs of the heap. -/
structure HeapReady (memory : PagedBytes) (argv envv : List CStr) : Prop where
  random : (stackGenerateMutual memory).Ready userHeapStart 16
  arguments : (stackGenerateMutual memory).Ready (userHeapStart + 16) (cut argv).flatten.length
  environment : (stackGenerateMutual memory).Ready (userHeapStart + 16 + total argv % 2 ^ 32) (cut envv).flatten.length

theorem pushEnvironment_eq {argv : List CStr} {memory : PagedBytes} {stored : Stored}
    (hstored : stored.ellapsed = ellapsed envv)
    (hstart : ellapsed envv > 0 → stored.start = userHeapStart + 16 + total argv % 2 ^ 32)
    (hmapped : t.memory.mapped = (stackGenerateMutual memory).mapped)
    (hroom : stackLow + 8 * envv.length ≤ t.usermodeRsp) (htop : t.usermodeRsp ≤ userStackBottom) :
    pushEnvironment t stored envv =
      .ok (t.pushed (envPushes envv (userHeapStart + 16 + total argv % 2 ^ 32))) := by
  unfold pushEnvironment envPushes
  rw [hstored]
  split_ifs with hpos
  · have hroom' : stackLow + 8 * (finalPointers stored 0 envv.reverse).length ≤ t.usermodeRsp := by
      rwa [length_finalPointers, List.length_reverse]
    rw [push_eq hmapped hroom' htop, ← hstart hpos, ← hstored]
  · rw [Target.pushed_nil]

/-- The pushes behind the strings. -/
theorem lastPushes_eq (argv : List CStr) (memory : PagedBytes) {stored : Stored}
    (hstored : stored.ellapsed = ellapsed envv)
    (hstart : ellapsed envv > 0 → stored.start = userHeapStart + 16 + total argv % 2 ^ 32)
    (hmapped : t.memory.mapped = (stackGenerateMutual memory).mapped)
    (hroom : stackLow + 8 * (3 + argv.length + envv.length) ≤ t.usermodeRsp) (htop : t.usermodeRsp ≤ userStackBottom) :
    (do
      let t ← t.push [0]
      let t ← pushEnvironment t stored envv
      let t ← t.push [0]
      let t ← t.push (finalPointers ⟨userHeapStart + 16, ellapsed argv⟩ 0 argv.reverse)
      t.push [argv.length]) = .ok (t.pushed (lastPushes argv envv)) := by
  have hargs : (finalPointers ⟨userHeapStart + 16, ellapsed argv⟩ 0 argv.reverse).length = argv.length := by
    rw [length_finalPointers, List.length_reverse]
  have henv := length_envPushes_le envv (userHeapStart + 16 + total argv % 2 ^ 32)
  have hpush (u : Target) (hu : u.memory.mapped = (stackGenerateMutual memory).mapped)
      (hroom : stackLow + 8 * envv.length ≤ u.usermodeRsp) (htop : u.usermodeRsp ≤ userStackBottom) :
      pushEnvironment u stored envv =
        .ok (u.pushed (envPushes envv (userHeapStart + 16 + total argv % 2 ^ 32))) :=
    pushEnvironment_eq hstored hstart hu hroom htop
  unfold lastPushes
  generalize envPushes envv (userHeapStart + 16 + total argv % 2 ^ 32) = envWords at henv hpush ⊢
  generalize finalPointers ⟨userHeapStart + 16, ellapsed argv⟩ 0 argv.reverse = argWords at hargs ⊢
  have hone (w : ℕ) : [w].length = 1 := rfl
  have hfirst : t.push [0] = .ok (t.pushed [0]) := push_eq hmapped (by rw [hone]; omega) htop
  have hsecond : pushEnvironment (t.pushed [0]) stored envv = .ok (t.pushed ([0] ++ envWords)) := by
    rw [hpush (t.pushed [0]) hmapped (by dsimp only [Target.pushed]; rw [hone]; omega)
      (by dsimp only [Target.pushed]; omega), Target.pushed_pushed (by rw [hone]; omega)]
  rw [hfirst, Exec.ok_bind, hsecond, Exec.ok_bind]
  rw [pushed_push hmapped (by simp only [List.length_append, hone]; omega) htop, Exec.ok_bind]
  rw [pushed_push hmapped (by simp only [List.length_append, hone]; omega) htop, Exec.ok_bind]
  rw [pushed_push hmapped (by simp only [List.length_append, hone]; omega) htop]

theorem stackGenerateUser_ok_iff (hlow : 2 ^ 47 ≤ hhdmOffset) (hhigh : hhdmOffset < 2 ^ 64)
    (hfits : 25 + argv.length + envv.length ≤ 512 * userStackPages) :
    stackGenerateUser hhdmOffset random elf atBase executableBase argv envv (.created memory) = .ok t ↔
      HeapReady memory argv envv ∧ t = built random elf atBase executableBase memory argv envv := by
  unfold userStackPages at hfits
  have hH : userHeapStart = 0x600000000000 := rfl
  have hB : userStackBottom = 0x800000000000 := rfl
  have hL : stackLow = 0x800000000000 - 0x30000 := rfl
  have hwrap : wrap (userHeapStart + 4 * 4) = userHeapStart + 16 := rfl
  have hadjust : Target.taskAdjustHeap hhdmOffset
      ⟨stackGenerateMutual memory, userStackBottom, userHeapStart, userHeapStart, false⟩ (userHeapStart + 16) =
        ⟨stackGenerateMutual memory, userStackBottom, userHeapStart, userHeapStart + 16, false⟩ :=
    taskAdjustHeap_eq hlow hhigh (by dsimp only; omega) (by dsimp only; omega) (by omega)
  have haux : (begun random memory).push (auxPushes elf userHeapStart atBase executableBase) =
      .ok ((begun random memory).pushed (auxPushes elf userHeapStart atBase executableBase)) := by
    refine push_eq rfl ?_ le_rfl
    rw [length_auxPushes]
    exact (by decide : stackLow + 8 * 22 ≤ userStackBottom)
  have hspace : total argv % 2 ^ 32 < 2 ^ 32 := Nat.mod_lt _ (by decide)
  generalize hstack : (begun random memory).pushed (auxPushes elf userHeapStart atBase executableBase) = u at haux
  have hu : u.heapStart = userHeapStart ∧ u.heapEnd = userHeapStart + 16 ∧
      u.memory.mapped = (stackGenerateMutual memory).mapped ∧ u.usermodeRsp = userStackBottom - 8 * 22 := by
    rw [← hstack]
    exact ⟨rfl, rfl, rfl, rfl⟩
  obtain ⟨hstart, hend, hmapped, hrsp⟩ := hu
  have hready (n k : ℕ) : u.memory.Ready n k ↔ (stackGenerateMutual memory).Ready n k := by
    unfold Ready
    rw [hmapped]
  -- the environment is stored in the same way when there is none
  have henvironment (t' : Target) (p : Stored) :
      storeEnvironment hhdmOffset (u.stored argv) envv = .ok (t', p) ↔
        (stackGenerateMutual memory).Ready (userHeapStart + 16 + total argv % 2 ^ 32) (cut envv).flatten.length ∧
          t' = (u.stored argv).stored envv ∧ p.ellapsed = ellapsed envv ∧
            p = if envv.length > 0 then ⟨userHeapStart + 16 + total argv % 2 ^ 32, ellapsed envv⟩ else ⟨0, 0⟩ := by
    unfold storeEnvironment
    cases envv with
    | nil =>
      rw [if_neg (by simp), if_neg (by simp), Target.stored_nil]
      constructor
      · intro heq
        cases heq
        exact ⟨ready_zero _ _, rfl, rfl, rfl⟩
      · rintro ⟨-, rfl, -, rfl⟩
        rfl
    | cons s envv =>
      have hheap : (u.stored argv).heapEnd = userHeapStart + 16 + total argv % 2 ^ 32 := by
        rw [Target.stored, hend]
      have hheapStart : (u.stored argv).heapStart = userHeapStart := by
        rw [Target.stored, hstart]
      rw [if_pos (by simp), if_pos (by simp), stackStorePtrStyle_ok_iff hlow hhigh, hheap]
      · refine and_congr (hready _ _) (and_congr_right fun _ => ?_)
        exact ⟨fun hp => ⟨by rw [hp], hp⟩, And.right⟩
      · rw [hheap, hheapStart]
        omega
      · rw [hheap]
        omega
  have hlast (p : Stored) (hellapsed : p.ellapsed = ellapsed envv)
      (hp : p = if envv.length > 0 then ⟨userHeapStart + 16 + total argv % 2 ^ 32, ellapsed envv⟩ else ⟨0, 0⟩) := by
    refine lastPushes_eq (t := (u.stored argv).stored envv) argv memory hellapsed (fun hpos => ?_) hmapped ?_ ?_
    · cases envv with
      | nil => cases hpos
      | cons s envv => rw [hp, if_pos (by simp)]
    · dsimp only [Target.stored]
      omega
    · dsimp only [Target.stored]
      omega
  unfold stackGenerateUser
  dsimp only [Target.created]
  rw [hwrap, hadjust]
  dsimp only
  rw [Exec.bind_ok_iff]
  constructor
  · rintro ⟨m, hcopy, hrest⟩
    obtain ⟨hrandom, rfl⟩ := copyAll_ok_iff.mp hcopy
    rw [length_randomBytes] at hrandom
    obtain ⟨u', hu', hrest⟩ := Exec.bind_ok_iff.mp hrest
    obtain rfl : u = u' := Except.ok.inj (haux.symm.trans hu')
    obtain ⟨⟨t₁, arguments⟩, hargs, hrest⟩ := Exec.bind_ok_iff.mp hrest
    obtain ⟨hargsReady, rfl, rfl⟩ := (stackStorePtrStyle_ok_iff hlow hhigh (by omega) (by omega)).mp hargs
    obtain ⟨⟨t₂, environment⟩, henv, hrest⟩ := Exec.bind_ok_iff.mp hrest
    obtain ⟨henvReady, rfl, hellapsed, hp⟩ := (henvironment t₂ environment).mp henv
    dsimp only at hrest
    rw [hend, hlast environment hellapsed hp] at hrest
    rw [hend] at hargsReady
    refine ⟨⟨hrandom, (hready _ _).mp hargsReady, henvReady⟩, ?_⟩
    rw [built, hstack]
    exact (Except.ok.inj hrest).symm
  · rintro ⟨⟨hrandom, hargsReady, henvReady⟩, rfl⟩
    have hcopy := copyAll_ok_iff.mpr ⟨(length_randomBytes random).symm ▸ hrandom, rfl⟩
    have hargs := (stackStorePtrStyle_ok_iff (l := argv) hlow hhigh (t := u) (by omega) (by omega)).mpr
      ⟨(hready _ _).mpr (hend.symm ▸ hargsReady), rfl, rfl⟩
    have hellapsed : (if envv.length > 0 then (⟨userHeapStart + 16 + total argv % 2 ^ 32, ellapsed envv⟩ : Stored)
        else ⟨0, 0⟩).ellapsed = ellapsed envv := by
      cases envv with
      | nil => rfl
      | cons s envv => rw [if_pos (by simp)]
    have henv := (henvironment _ _).mpr ⟨henvReady, rfl, hellapsed, rfl⟩
    refine ⟨_, hcopy, Exec.bind_ok_iff.mpr ⟨u, haux, Exec.bind_ok_iff.mpr ⟨_, hargs, ?_⟩⟩⟩
    refine Exec.bind_ok_iff.mpr ⟨_, henv, ?_⟩
    dsimp only
    rw [hend, hlast _ hellapsed rfl, built, hstack]

end Run

end DualFuse.Multitasking
