import DualFuse.Multitasking.UserStackBuilt

/-! Which argument and environment lists get a first stack as a program expects it. Every store
to the heap needs a page that is mapped already, the totals of the strings have to fit an `int`,
and the stack pointer is a multiple of 16 only if the number of words pushed is even. -/

namespace DualFuse.Multitasking

open Library Utility Memory PagedBytes

variable {hhdmOffset : ℕ} {t t' : Target} {ws vs : List ℕ} {l argv envv : List CStr}

/-! ### The words on the stack -/

namespace Target

/-- The words from the stack pointer on, in 64 bits each. -/
def Holds (t : Target) (ws : List ℕ) : Prop :=
  ∀ i (hi : i < ws.length), t.word (t.usermodeRsp + 8 * i) = ws[i] % 2 ^ 64

theorem Holds.pushed (h : t.Holds ws) (hroom : 8 * vs.length ≤ t.usermodeRsp) :
    (t.pushed vs).Holds (vs.reverse ++ ws) := by
  intro i hi
  unfold word Target.pushed
  dsimp only
  rw [bytes_written]
  by_cases hnew : i < vs.reverse.length
  · rw [readNat_encode _ _ hnew, List.getElem_append_left hnew]
  · rw [List.length_reverse, not_lt] at hnew
    have hplace : t.usermodeRsp - 8 * vs.length + 8 * i = t.usermodeRsp + 8 * (i - vs.length) := by omega
    rw [List.length_append, List.length_reverse] at hi
    rw [hplace, Bytes.readNat_congr (b := t.memory.bytes), List.getElem_append_right (by rwa [List.length_reverse])]
    · simp only [List.length_reverse]
      exact h (i - vs.length) (by omega)
    · intro j hj _
      refine Bytes.write_of_ge ?_
      rw [length_encode, List.length_reverse]
      omega

theorem Holds.stored (h : t.Holds ws) (hroom : t.heapEnd + (cut l).flatten.length ≤ t.usermodeRsp) :
    (t.stored l).Holds ws := by
  intro i hi
  refine Eq.trans ?_ (h i hi)
  unfold word Target.stored
  dsimp only
  exact Bytes.readNat_congr fun j hj _ => Bytes.write_of_ge (by omega)

/-- What memory reads as, from what it holds. -/
theorem Holds.reads_iff (h : t.Holds ws) (hle : vs.length ≤ ws.length) :
    t.Reads vs ↔ vs = (ws.take vs.length).map (· % 2 ^ 64) := by
  have hlist : (List.range vs.length).map (fun i => t.word (t.usermodeRsp + 8 * i)) =
      (ws.take vs.length).map (· % 2 ^ 64) := by
    refine List.ext_getElem (by simp [hle]) fun i h₁ h₂ => ?_
    simp only [List.getElem_map, List.getElem_range, List.getElem_take]
    exact h i (by rw [List.length_map, List.length_range] at h₁; omega)
  unfold Reads
  rw [hlist]
  exact eq_comm

theorem Holds.word_eq (h : t.Holds ws) {i w : ℕ} (hw : ws[i]? = some w) :
    t.word (t.usermodeRsp + 8 * i) = w % 2 ^ 64 := by
  obtain ⟨hi, rfl⟩ := List.getElem?_eq_some_iff.mp hw
  exact h i hi

theorem Reads.word_eq (h : t.Reads vs) {i v : ℕ} (hv : vs[i]? = some v) : t.word (t.usermodeRsp + 8 * i) = v := by
  obtain ⟨hi, rfl⟩ := List.getElem?_eq_some_iff.mp hv
  have hget : ((List.range vs.length).map fun i => t.word (t.usermodeRsp + 8 * i))[i]? = vs[i]? := by rw [h]
  rw [List.getElem?_map, List.getElem?_range hi, hv] at hget
  exact Option.some.inj hget

end Target

/-! ### The copies -/

/-- Where the strings of a list lie that starts at an address. -/
def offsets : (a : ℕ) → List CStr → List ℕ
  | _, [] => []
  | a, s :: l => a :: offsets (a + s.size) l

theorem total_cons (s : CStr) (l : List CStr) : total (s :: l) = s.size + total l := by
  rw [total, List.map_cons, List.sum_cons, total]

theorem length_flatten_terminated (l : List CStr) : (l.map CStr.terminated).flatten.length = total l := by
  induction l with
  | nil => rfl
  | cons s l ih => rw [List.map_cons, List.flatten_cons, List.length_append, ih, CStr.length_terminated, total_cons]

/-- The strings of a stored list are at their offsets. -/
theorem forall₂_offsets (b : ℕ → BitVec 8) {a : ℕ} (h : Bytes.read b a (total l) = (l.map CStr.terminated).flatten) :
    List.Forall₂ (fun p s => Bytes.read b p s.size = s.terminated ∧ a ≤ p ∧ p + s.size ≤ a + total l)
      (offsets a l) l := by
  induction l generalizing a with
  | nil => exact .nil
  | cons s l ih =>
    rw [total_cons, ← Bytes.read_append, List.map_cons, List.flatten_cons] at h
    obtain ⟨hs, hl⟩ := List.append_inj h (by rw [Bytes.length_read, CStr.length_terminated])
    rw [offsets, total_cons]
    refine .cons ⟨hs, le_rfl, by omega⟩ ?_
    refine (ih hl).imp fun p s' hp => ⟨hp.1, by omega, by omega⟩

theorem spans_offsets (a : ℕ) (l : List CStr) :
    (Target.spans (offsets a l) l).Pairwise Target.Apart ∧
      ∀ p ∈ Target.spans (offsets a l) l, a ≤ p.1 ∧ p.1 + p.2 ≤ a + total l := by
  induction l generalizing a with
  | nil => exact ⟨.nil, fun p hp => by cases hp⟩
  | cons s l ih =>
    obtain ⟨hapart, hin⟩ := ih (a + s.size)
    rw [offsets, Target.spans, List.zipWith_cons_cons, total_cons]
    refine ⟨.cons (fun p hp => Or.inl (hin p hp).1) hapart, fun p hp => ?_⟩
    rcases List.mem_cons.mp hp with rfl | hp
    · exact ⟨le_rfl, by dsimp only; omega⟩
    · have := hin p hp
      omega

theorem map_snd_spans {pointers : List ℕ} (h : pointers.length = l.length) :
    (Target.spans pointers l).map Prod.snd = l.map CStr.size := by
  rw [Target.spans, List.map_zipWith]
  induction l generalizing pointers with
  | nil => rw [List.zipWith_nil_right, List.map_nil]
  | cons s l ih =>
    cases pointers with
    | nil => cases h
    | cons p pointers => rw [List.zipWith_cons_cons, ih (Nat.succ.inj h), List.map_cons]

theorem spans_inside {pointers : List ℕ} (h : List.Forall₂ t.Copied pointers l) :
    ∀ p ∈ Target.spans pointers l, t.heapStart ≤ p.1 ∧ p.1 + p.2 ≤ t.heapEnd := by
  induction h with
  | nil => intro p hp; cases hp
  | cons hcopied _ ih =>
    intro p hp
    rw [Target.spans, List.zipWith_cons_cons] at hp
    rcases List.mem_cons.mp hp with rfl | hp
    · exact ⟨hcopied.heapStart, hcopied.heapEnd⟩
    · exact ih p hp

/-- Spans that are apart and inside a range take no more than the range. -/
theorem sum_le_of_apart {lo hi : ℕ} {spans : List (ℕ × ℕ)} (hapart : spans.Pairwise Target.Apart)
    (hin : ∀ p ∈ spans, lo ≤ p.1 ∧ p.1 + p.2 ≤ hi) : (spans.map Prod.snd).sum ≤ hi - lo := by
  have hcard : ∃ covered : Finset ℕ, covered.card = (spans.map Prod.snd).sum ∧
      ∀ x ∈ covered, ∃ p ∈ spans, p.1 ≤ x ∧ x < p.1 + p.2 := by
    clear hin
    induction spans with
    | nil => exact ⟨∅, rfl, fun x hx => by simp at hx⟩
    | cons p spans ih =>
      obtain ⟨hp, hrest⟩ := List.pairwise_cons.mp hapart
      obtain ⟨covered, hcard, hcovered⟩ := ih hrest
      have hdisjoint : Disjoint (Finset.Ico p.1 (p.1 + p.2)) covered := by
        rw [Finset.disjoint_left]
        intro x hx hx'
        obtain ⟨q, hq, hlow, hhigh⟩ := hcovered x hx'
        rw [Finset.mem_Ico] at hx
        have := hp q hq
        unfold Target.Apart at this
        omega
      refine ⟨Finset.Ico p.1 (p.1 + p.2) ∪ covered, ?_, fun x hx => ?_⟩
      · rw [Finset.card_union_of_disjoint hdisjoint, hcard, Nat.card_Ico, List.map_cons, List.sum_cons]
        omega
      · rcases Finset.mem_union.mp hx with hx | hx
        · exact ⟨p, List.mem_cons_self, Finset.mem_Ico.mp hx⟩
        · obtain ⟨q, hq, hbounds⟩ := hcovered x hx
          exact ⟨q, List.mem_cons_of_mem p hq, hbounds⟩
  obtain ⟨covered, hcard, hcovered⟩ := hcard
  have hsubset : covered ⊆ Finset.Ico lo hi := by
    intro x hx
    obtain ⟨p, hp, hlow, hhigh⟩ := hcovered x hx
    have := hin p hp
    rw [Finset.mem_Ico]
    omega
  have hle := Finset.card_le_card hsubset
  rwa [hcard, Nat.card_Ico] at hle

theorem total_append (l l' : List CStr) : total (l ++ l') = total l + total l' := by
  rw [total, List.map_append, List.sum_append, total, total]

theorem size_pos (s : CStr) : 0 < s.size := Nat.succ_pos _

theorem map_len (h : total l < 2 ^ 32) : l.map CStr.len = l.map CStr.size := by
  refine List.map_congr_left fun s hs => Nat.mod_eq_of_lt ?_
  have hle : s.size ≤ total l := List.le_sum_of_mem (List.mem_map_of_mem hs)
  omega

theorem cut_eq (h : total l < 2 ^ 32) : cut l = l.map CStr.terminated := by
  refine List.map_congr_left fun s hs => ?_
  have hle : s.size ≤ total l := List.le_sum_of_mem (List.mem_map_of_mem hs)
  rw [CStr.len, Nat.mod_eq_of_lt (by omega), ← CStr.length_terminated, List.take_length]

/-! ### The pointers -/

theorem total_reverse (l : List CStr) : total l.reverse = total l := by
  rw [total, List.map_reverse, List.sum_reverse, total]

theorem offsets_add (a k : ℕ) (l : List CStr) : offsets (a + k) l = (offsets a l).map (· + k) := by
  induction l generalizing a with
  | nil => rfl
  | cons s l ih => rw [offsets, offsets, List.map_cons, ← ih, Nat.add_right_comm]

theorem finalPointers_append (stored : Stored) {f : ℕ} {s : CStr} (h : f + total (l ++ [s]) < 2 ^ 32) :
    finalPointers stored f (l ++ [s]) = finalPointers stored f l ++
      [wrap (stored.start + intToSize stored.ellapsed + (2 ^ 64 - (f + total (l ++ [s]))))] := by
  induction l generalizing f with
  | nil =>
    have hs : total ([] ++ [s]) = s.size := rfl
    rw [hs] at h ⊢
    rw [List.nil_append, finalPointers, finalPointers, finalPointers, List.nil_append, CStr.len,
      Nat.mod_eq_of_lt (by omega), wrap_of_lt (n := f + s.size) (by omega)]
  | cons s' l ih =>
    rw [List.cons_append, total_cons] at h ⊢
    rw [finalPointers, finalPointers, CStr.len, Nat.mod_eq_of_lt (by omega), wrap_of_lt (n := f + s'.size) (by omega),
      ih (by omega), ← Nat.add_assoc]
    rfl

/-- Pushing from the last string on makes an offset of what is left of the total. -/
theorem reverse_finalPointers (stored : Stored) (h : total l < 2 ^ 32) :
    (finalPointers stored 0 l.reverse).reverse =
      (offsets 0 l).map fun o => wrap (stored.start + intToSize stored.ellapsed + (2 ^ 64 - (total l - o))) := by
  induction l with
  | nil => rfl
  | cons s l ih =>
    have hall : total (l.reverse ++ [s]) = total (s :: l) := by
      rw [← List.reverse_cons, total_reverse]
    rw [List.reverse_cons, finalPointers_append stored (by omega), List.reverse_append, List.reverse_singleton, hall]
    rw [total_cons] at h ⊢
    rw [ih (by omega), offsets, offsets_add, List.map_cons, List.map_map, Nat.zero_add, Nat.sub_zero,
      List.singleton_append]
    refine congrArg _ (List.map_congr_left fun o _ => ?_)
    rw [Function.comp_apply, Nat.add_comm o, Nat.add_sub_add_left]

theorem le_of_mem_offsets {a p : ℕ} (h : p ∈ offsets a l) : a ≤ p ∧ p < a + total l := by
  induction l generalizing a with
  | nil => cases h
  | cons s l ih =>
    have hs := size_pos s
    rw [total_cons]
    rcases List.mem_cons.mp h with rfl | h
    · omega
    · have := ih h
      omega

theorem ellapsed_of_lt (h : total l < 2 ^ 31) : ellapsed l = total l := by
  rw [ellapsed, map_len (by omega), show (l.map CStr.size).sum = total l from rfl, wrap_of_lt (by omega),
    wrapInt_natCast h]

theorem ellapsed_of_ge (hlow : 2 ^ 31 ≤ total l) (hhigh : total l < 2 ^ 32) : ellapsed l = total l - 2 ^ 32 := by
  rw [ellapsed, map_len hhigh, show (l.map CStr.size).sum = total l from rfl, wrap_of_lt (by omega), wrapInt,
    Int.bmod_def]
  omega

/-- Where the total fits an `int`, the pointers go to the strings. -/
theorem finalPointers_of_lt {start : ℕ} (h : total l < 2 ^ 31) (hstart : start + total l < 2 ^ 64) :
    (finalPointers ⟨start, ellapsed l⟩ 0 l.reverse).reverse = offsets start l := by
  rw [reverse_finalPointers _ (by omega), ← Nat.zero_add start, offsets_add]
  refine List.map_congr_left fun o ho => ?_
  have := le_of_mem_offsets ho
  dsimp only
  rw [ellapsed_of_lt h, intToSize_of_nonneg (by omega), wrap]
  omega

/-- Where it does not, the first pointer is off by `2 ^ 32`. -/
theorem finalPointers_of_ge {start : ℕ} (s : CStr) (hlow : 2 ^ 31 ≤ total (s :: l)) (hhigh : total (s :: l) < 2 ^ 32)
    (hstart : 2 ^ 32 ≤ start) (hsmall : start < 2 ^ 64) :
    (finalPointers ⟨start, ellapsed (s :: l)⟩ 0 (s :: l).reverse).reverse.head? = some (start - 2 ^ 32) := by
  rw [reverse_finalPointers _ hhigh, offsets, List.map_cons, List.head?_cons, ellapsed_of_ge hlow hhigh, intToSize, wrap]
  dsimp only
  generalize total (s :: l) = n at hlow hhigh
  have hneg : (((n : ℤ) - 2 ^ 32) % 2 ^ 64).toNat = 2 ^ 64 + n - 2 ^ 32 := by omega
  rw [hneg]
  refine congrArg some ?_
  omega

/-! ### The stack at the end -/

section Built
variable {random : Fin 4 → BitVec 32} {elf : ElfFields} {atBase executableBase : ℕ} {memory : PagedBytes}

/-- The words at the end, from the stack pointer on. -/
def finalWords (elf : ElfFields) (atBase executableBase : ℕ) (argv envv : List CStr) : List ℕ :=
  (lastPushes argv envv).reverse ++ (auxPushes elf userHeapStart atBase executableBase).reverse

theorem length_envPushes (start : ℕ) (h : total envv < 2 ^ 31) : (envPushes envv start).length = envv.length := by
  unfold envPushes
  rw [ellapsed_of_lt h]
  split_ifs with hpos
  · rw [length_finalPointers, List.length_reverse]
  · cases envv with
    | nil => rfl
    | cons s l =>
      have := size_pos s
      rw [total_cons] at hpos
      omega

theorem finalWords_eq (elf : ElfFields) (atBase executableBase : ℕ) (argv envv : List CStr) :
    finalWords elf atBase executableBase argv envv =
      argv.length :: ((finalPointers ⟨userHeapStart + 16, ellapsed argv⟩ 0 argv.reverse).reverse ++
        0 :: ((envPushes envv (userHeapStart + 16 + total argv % 2 ^ 32)).reverse ++
          0 :: (auxPushes elf userHeapStart atBase executableBase).reverse)) := by
  have hreverse (n : ℕ) (argWords envWords auxiliary : List ℕ) :
      ([0] ++ envWords ++ [0] ++ argWords ++ [n]).reverse ++ auxiliary.reverse =
        n :: (argWords.reverse ++ 0 :: (envWords.reverse ++ 0 :: auxiliary.reverse)) := by simp
  rw [finalWords, lastPushes, hreverse]

/-- The auxiliary vector, without its end. -/
def auxPairs (elf : ElfFields) (atBase executableBase : ℕ) : List (ℕ × ℕ) :=
  [(3, wrap (executableBase + phdrThing elf + elf.ePhoff)), (16, 0), (8, 0), (7, atBase % 2 ^ 64),
    (9, wrap (executableBase + elf.eEntry)), (4, elf.ePhentsize % 2 ^ 64), (5, elf.ePhnum % 2 ^ 64), (23, 0), (6, 4096),
    (25, userHeapStart)]

theorem map_auxPushes (elf : ElfFields) (atBase executableBase : ℕ) :
    ((auxPushes elf userHeapStart atBase executableBase).reverse.map (· % 2 ^ 64)) =
      Target.auxWords (auxPairs elf atBase executableBase) ++ [0, 0] := by
  simp [auxPushes, auxPairs, Target.auxWords, wrap, userHeapStart]

theorem map_offsets {a : ℕ} (h : a + total l ≤ 2 ^ 64) : (offsets a l).map (· % 2 ^ 64) = offsets a l := by
  refine (List.map_congr_left fun p hp => ?_).trans (List.map_id _)
  have := le_of_mem_offsets hp
  exact Nat.mod_eq_of_lt (by omega)

theorem envPushes_reverse {start : ℕ} (h : total envv < 2 ^ 31) (hstart : start + total envv < 2 ^ 64) :
    (envPushes envv start).reverse = offsets start envv := by
  unfold envPushes
  split_ifs with hpos
  · exact finalPointers_of_lt h hstart
  · cases envv with
    | nil => rfl
    | cons s l =>
      have := size_pos s
      rw [ellapsed_of_lt h, total_cons] at hpos
      omega

theorem heapEnd_built (random : Fin 4 → BitVec 32) (elf : ElfFields) (atBase executableBase : ℕ) (memory : PagedBytes)
    (argv envv : List CStr) : (built random elf atBase executableBase memory argv envv).heapEnd =
      userHeapStart + 16 + total argv % 2 ^ 32 + total envv % 2 ^ 32 := rfl

theorem bytes_built (random : Fin 4 → BitVec 32) (elf : ElfFields) (atBase executableBase : ℕ) (memory : PagedBytes)
    (argv envv : List CStr) : (built random elf atBase executableBase memory argv envv).memory.bytes =
      Bytes.write (Bytes.write (Bytes.write ((begun random memory).pushed
        (auxPushes elf userHeapStart atBase executableBase)).memory.bytes (userHeapStart + 16) (cut argv).flatten)
        (userHeapStart + 16 + total argv % 2 ^ 32) (cut envv).flatten)
        (userStackBottom - 8 * 22 - 8 * (lastPushes argv envv).length) (encode (lastPushes argv envv).reverse) := by
  have hbytes (u : Target) (ws : List ℕ) : (((u.stored argv).stored envv).pushed ws).memory.bytes =
      Bytes.write (Bytes.write (Bytes.write u.memory.bytes u.heapEnd (cut argv).flatten)
        (u.heapEnd + total argv % 2 ^ 32) (cut envv).flatten) (u.usermodeRsp - 8 * ws.length) (encode ws.reverse) := rfl
  have hrsp : ((begun random memory).pushed (auxPushes elf userHeapStart atBase executableBase)).usermodeRsp =
      userStackBottom - 8 * 22 := rfl
  have hend : ((begun random memory).pushed (auxPushes elf userHeapStart atBase executableBase)).heapEnd =
      userHeapStart + 16 := rfl
  rw [built, hbytes, hrsp, hend]

/-- Strings whose copies are in the heap have totals that fit the 32 bits of `argSpace`. -/
theorem total_lt_of_stackBuilt (h : (built random elf atBase executableBase memory argv envv).StackBuilt argv envv) :
    total argv < 2 ^ 32 ∧ total envv < 2 ^ 32 := by
  obtain ⟨argp, envp, pairs, -, -, hargp, henvp, hapart⟩ := h.layout
  have hle := sum_le_of_apart hapart fun p hp =>
    (List.mem_append.mp hp).elim (spans_inside hargp p) (spans_inside henvp p)
  rw [List.map_append, List.sum_append, map_snd_spans hargp.length_eq, map_snd_spans henvp.length_eq] at hle
  have hend : (built random elf atBase executableBase memory argv envv).heapEnd =
      userHeapStart + 16 + total argv % 2 ^ 32 + total envv % 2 ^ 32 := rfl
  have hstart : (built random elf atBase executableBase memory argv envv).heapStart = userHeapStart := rfl
  rw [hend, hstart] at hle
  change total argv + total envv ≤ _ at hle
  omega

variable (hfits : 25 + argv.length + envv.length ≤ 512 * userStackPages)
include hfits

theorem usermodeRsp_built :
    (built random elf atBase executableBase memory argv envv).usermodeRsp =
      userStackBottom - 8 * (22 + (lastPushes argv envv).length) ∧
      22 + (lastPushes argv envv).length ≤ 512 * userStackPages := by
  have hlen := length_lastPushes argv envv
  have henv := length_envPushes_le envv (userHeapStart + 16 + total argv % 2 ^ 32)
  refine ⟨?_, by omega⟩
  have haux : (auxPushes elf userHeapStart atBase executableBase).length = 22 := rfl
  dsimp only [built, begun, Target.pushed, Target.stored]
  rw [haux, Nat.sub_sub]
  exact congrArg _ (Nat.mul_add 8 _ _).symm

theorem holds_built (hargv : total argv < 2 ^ 32) (henvv : total envv < 2 ^ 32) :
    (built random elf atBase executableBase memory argv envv).Holds
      (finalWords elf atBase executableBase argv envv) := by
  have hlen := length_lastPushes argv envv
  have henv := length_envPushes_le envv (userHeapStart + 16 + total argv % 2 ^ 32)
  have hcut (l : List CStr) (hl : total l < 2 ^ 32) : (cut l).flatten.length = total l := by
    rw [cut_eq hl, length_flatten_terminated]
  have haux : (auxPushes elf userHeapStart atBase executableBase).length = 22 := rfl
  have hH : userHeapStart = 0x600000000000 := rfl
  have hB : userStackBottom = 0x800000000000 := rfl
  have hP : userStackPages = 0x30 := rfl
  have hnone : (begun random memory).Holds [] := fun i hi => absurd hi (Nat.not_lt_zero i)
  have hpushed : ((begun random memory).pushed (auxPushes elf userHeapStart atBase executableBase)).Holds _ :=
    hnone.pushed (by rw [haux]; exact (by decide : 8 * 22 ≤ userStackBottom))
  rw [List.append_nil] at hpushed
  have hargs := hpushed.stored (l := argv) (by
    rw [hcut argv hargv]
    dsimp only [begun, Target.pushed]
    rw [haux]
    omega)
  have hboth := hargs.stored (l := envv) (by
    rw [hcut envv henvv]
    dsimp only [begun, Target.pushed, Target.stored]
    rw [haux]
    omega)
  refine hboth.pushed ?_
  dsimp only [begun, Target.pushed, Target.stored]
  rw [haux]
  omega

/-- The strings are in the heap, those of the environment behind the arguments. -/
theorem copied_built (hargv : total argv < 2 ^ 31) (henvv : total envv < 2 ^ 31) :
    List.Forall₂ (built random elf atBase executableBase memory argv envv).Copied
        (offsets (userHeapStart + 16) argv) argv ∧
      List.Forall₂ (built random elf atBase executableBase memory argv envv).Copied
        (offsets (userHeapStart + 16 + total argv) envv) envv := by
  have hlen := length_lastPushes argv envv
  have henv := length_envPushes_le envv (userHeapStart + 16 + total argv % 2 ^ 32)
  have hH : userHeapStart = 0x600000000000 := rfl
  have hB : userStackBottom = 0x800000000000 := rfl
  have hP : userStackPages = 0x30 := rfl
  have hargc : total argv % 2 ^ 32 = total argv := Nat.mod_eq_of_lt (by omega)
  have henvc : total envv % 2 ^ 32 = total envv := Nat.mod_eq_of_lt (by omega)
  have hbytes := bytes_built random elf atBase executableBase memory argv envv
  have hend := heapEnd_built random elf atBase executableBase memory argv envv
  have hstart : (built random elf atBase executableBase memory argv envv).heapStart = userHeapStart := rfl
  rw [hargc, henvc] at hend
  rw [hargc, cut_eq (by omega), cut_eq (by omega)] at hbytes
  generalize ((begun random memory).pushed (auxPushes elf userHeapStart atBase executableBase)).memory.bytes = b
    at hbytes
  -- the pushes are above both copies
  have hbelow (p n : ℕ) (hp : p + n ≤ userHeapStart + 16 + total argv + total envv) :
      Bytes.read (built random elf atBase executableBase memory argv envv).memory.bytes p n = Bytes.read (Bytes.write
        (Bytes.write b (userHeapStart + 16) (argv.map CStr.terminated).flatten) (userHeapStart + 16 + total argv)
          (envv.map CStr.terminated).flatten) p n := by
    rw [hbytes]
    exact Bytes.read_write_of_disjoint (by omega)
  have hread (b : ℕ → BitVec 8) (a : ℕ) (l : List CStr) :
      Bytes.read (Bytes.write b a (l.map CStr.terminated).flatten) a (total l) = (l.map CStr.terminated).flatten := by
    rw [← length_flatten_terminated, Bytes.read_write]
  constructor
  · refine (forall₂_offsets _ ?_).imp fun p s hp => ⟨hp.1, by omega, by omega⟩
    rw [hbelow _ _ (by omega), Bytes.read_write_of_disjoint (by omega), hread]
  · refine (forall₂_offsets _ ?_).imp fun p s hp => ⟨hp.1, by omega, by omega⟩
    rw [hbelow _ _ (by omega), hread]

/-- The words where both totals fit an `int`. -/
theorem reads_built (hargv : total argv < 2 ^ 31) (henvv : total envv < 2 ^ 31) :
    (built random elf atBase executableBase memory argv envv).Reads
      (argv.length :: (offsets (userHeapStart + 16) argv ++ 0 :: (offsets (userHeapStart + 16 + total argv) envv ++
        0 :: (Target.auxWords (auxPairs elf atBase executableBase) ++ [0])))) := by
  have hH : userHeapStart = 0x600000000000 := rfl
  have hP : userStackPages = 0x30 := rfl
  have hholds : (built random elf atBase executableBase memory argv envv).Holds
      (finalWords elf atBase executableBase argv envv) := holds_built hfits (by omega) (by omega)
  have hwords : (finalWords elf atBase executableBase argv envv).map (· % 2 ^ 64) =
      (argv.length :: (offsets (userHeapStart + 16) argv ++ 0 :: (offsets (userHeapStart + 16 + total argv) envv ++
        0 :: (Target.auxWords (auxPairs elf atBase executableBase) ++ [0])))) ++ [0] := by
    rw [finalWords_eq, finalPointers_of_lt hargv (by omega), Nat.mod_eq_of_lt (by omega : total argv < 2 ^ 32),
      envPushes_reverse henvv (by omega), List.map_cons, List.map_append, List.map_cons, List.map_append, List.map_cons,
      map_auxPushes, map_offsets (by omega), map_offsets (by omega), Nat.mod_eq_of_lt (by omega : argv.length < 2 ^ 64),
      Nat.zero_mod]
    simp only [List.cons_append, List.append_assoc, List.nil_append]
  generalize argv.length :: (offsets (userHeapStart + 16) argv ++ 0 :: (offsets (userHeapStart + 16 + total argv) envv ++
        0 :: (Target.auxWords (auxPairs elf atBase executableBase) ++ [0]))) = vs at hwords ⊢
  have hlen := congrArg List.length hwords
  rw [List.length_map, List.length_append, List.length_singleton] at hlen
  rw [hholds.reads_iff (by omega), List.map_take, hwords, List.take_left]

/-- The first pointer of a list whose total does not fit an `int` is below the heap. -/
theorem total_lt_of_reads {argp rest : List ℕ} (hargv : total argv < 2 ^ 32) (henvv : total envv < 2 ^ 32)
    (hreads : (built random elf atBase executableBase memory argv envv).Reads (argv.length :: (argp ++ rest)))
    (hargp : List.Forall₂ (built random elf atBase executableBase memory argv envv).Copied argp argv) :
    total argv < 2 ^ 31 := by
  have hholds : (built random elf atBase executableBase memory argv envv).Holds
      (finalWords elf atBase executableBase argv envv) := holds_built hfits hargv henvv
  by_contra! hlow
  cases hargp with
  | nil => cases hlow
  | @cons p s argp argv hp hargp =>
    have hhead : (finalPointers ⟨userHeapStart + 16, ellapsed (s :: argv)⟩ 0 (s :: argv).reverse).reverse.head? =
        some (userHeapStart + 16 - 2 ^ 32) := finalPointers_of_ge s hlow hargv (by decide) (by decide)
    obtain ⟨pointers, hpointers⟩ := List.head?_eq_some_iff.mp hhead
    have hword := hreads.word_eq (i := 1) (v := p) rfl
    rw [hholds.word_eq (i := 1) (w := userHeapStart + 16 - 2 ^ 32) (by rw [finalWords_eq, hpointers]; rfl)] at hword
    have hstart := hp.heapStart
    have hheap : (built random elf atBase executableBase memory (s :: argv) envv).heapStart = 0x600000000000 := rfl
    have hH : userHeapStart = 0x600000000000 := rfl
    omega

/-- No pointers are pushed for an environment whose total does not fit an `int`. -/
theorem total_env_lt_of_reads {argp envp rest : List ℕ} (hargv : total argv < 2 ^ 32) (henvv : total envv < 2 ^ 32)
    (hreads : (built random elf atBase executableBase memory argv envv).Reads
      (argv.length :: (argp ++ 0 :: (envp ++ rest))))
    (hargp : argp.length = argv.length)
    (henvp : List.Forall₂ (built random elf atBase executableBase memory argv envv).Copied envp envv) :
    total envv < 2 ^ 31 := by
  have hholds : (built random elf atBase executableBase memory argv envv).Holds
      (finalWords elf atBase executableBase argv envv) := holds_built hfits hargv henvv
  by_contra! hlow
  have hnone : envPushes envv (userHeapStart + 16 + total argv % 2 ^ 32) = [] := by
    rw [envPushes, if_neg]
    rw [ellapsed_of_ge hlow henvv]
    omega
  cases henvp with
  | nil => cases hlow
  | @cons p s envp envv hp henvp =>
    have hword := hreads.word_eq (i := argp.length + 2) (v := p) (by
      rw [List.getElem?_cons_succ, List.getElem?_append_right (by omega), Nat.add_sub_cancel_left,
        List.getElem?_cons_succ]
      rfl)
    rw [hholds.word_eq (i := argp.length + 2) (w := 0) ?_] at hword
    · have hstart := hp.heapStart
      have hheap : (built random elf atBase executableBase memory argv (s :: envv)).heapStart = 0x600000000000 := rfl
      omega
    · have hlen : (finalPointers ⟨userHeapStart + 16, ellapsed argv⟩ 0 argv.reverse).reverse.length = argp.length := by
        rw [List.length_reverse, length_finalPointers, List.length_reverse, hargp]
      rw [finalWords_eq, hnone, List.getElem?_cons_succ, List.getElem?_append_right (by omega), hlen,
        Nat.add_sub_cancel_left]
      rfl

/-- The stack at the end is a good one. -/
theorem built_stackBuilt_iff :
    (built random elf atBase executableBase memory argv envv).StackBuilt argv envv ↔
      (argv.length + envv.length) % 2 = 1 ∧ total argv < 2 ^ 31 ∧ total envv < 2 ^ 31 := by
  obtain ⟨hrsp, hroom⟩ : (built random elf atBase executableBase memory argv envv).usermodeRsp =
      userStackBottom - 8 * (22 + (lastPushes argv envv).length) ∧ _ := usermodeRsp_built hfits
  have hB : userStackBottom = 0x800000000000 := rfl
  have hP : userStackPages = 0x30 := rfl
  have hlen := length_lastPushes argv envv
  constructor
  · intro h
    obtain ⟨hargv, henvv⟩ := total_lt_of_stackBuilt h
    obtain ⟨argp, envp, pairs, hreads, -, hargp, henvp, -⟩ := h.layout
    have hargv' := total_lt_of_reads hfits hargv henvv hreads hargp
    have henvv' := total_env_lt_of_reads hfits hargv henvv hreads hargp.length_eq henvp
    have haligned := h.aligned
    rw [length_envPushes _ henvv'] at hlen
    exact ⟨by omega, hargv', henvv'⟩
  · rintro ⟨hodd, hargv, henvv⟩
    obtain ⟨hargp, henvp⟩ : List.Forall₂ (built random elf atBase executableBase memory argv envv).Copied
        (offsets (userHeapStart + 16) argv) argv ∧ _ := copied_built hfits hargv henvv
    obtain ⟨happart, hain⟩ := spans_offsets (userHeapStart + 16) argv
    obtain ⟨hepart, hein⟩ := spans_offsets (userHeapStart + 16 + total argv) envv
    rw [length_envPushes _ henvv] at hlen
    refine ⟨⟨_, _, auxPairs elf atBase executableBase, reads_built hfits hargv henvv, ?_, hargp, henvp, ?_⟩, by omega⟩
    · intro p hp
      fin_cases hp <;> exact Nat.succ_ne_zero _
    · exact List.pairwise_append.mpr ⟨happart, hepart, fun p hp q hq => Or.inl ((hain p hp).2.trans (hein q hq).1)⟩

end Built

/-- The heap is mapped where the run stores to it. -/
theorem heapReady_iff {memory : PagedBytes} (hargv : total argv < 2 ^ 31) (henvv : total envv < 2 ^ 31) :
    HeapReady memory argv envv ↔ memory.Ready userHeapStart (16 + total argv + total envv) := by
  have hH : userHeapStart = 0x600000000000 := rfl
  have hL : stackLow = 0x800000000000 - 0x30000 := rfl
  have hbelow (a n : ℕ) (hn : a + n ≤ stackLow) : (stackGenerateMutual memory).Ready a n ↔ memory.Ready a n := by
    refine forall₂_congr fun i hi => ?_
    rw [stackGenerateMutual_mapped]
    exact or_iff_right (by omega)
  have hargc : total argv % 2 ^ 32 = total argv := Nat.mod_eq_of_lt (by omega)
  have hcut (l : List CStr) (hl : total l < 2 ^ 31) : (cut l).flatten.length = total l := by
    rw [cut_eq (by omega), length_flatten_terminated]
  rw [ready_add, ready_add, ← Nat.add_assoc, and_assoc]
  constructor
  · rintro ⟨hrandom, hargs, henv⟩
    rw [hcut argv hargv, hbelow _ _ (by omega)] at hargs
    rw [hargc, hcut envv henvv, hbelow _ _ (by omega)] at henv
    exact ⟨(hbelow _ _ (by omega)).mp hrandom, hargs, henv⟩
  · rintro ⟨hrandom, hargs, henv⟩
    refine ⟨(hbelow _ _ (by omega)).mpr hrandom, ?_, ?_⟩
    · rwa [hcut argv hargv, hbelow _ _ (by omega)]
    · rwa [hargc, hcut envv henvv, hbelow _ _ (by omega)]

/-- A program gets the stack it is to be entered with if and only if the two lists together have an
odd number of strings, the totals fit an `int`, and the heap is mapped before it is grown. -/
theorem stackGenerateUser_builds_iff {random : Fin 4 → BitVec 32} {elf : ElfFields} {atBase executableBase : ℕ}
    {memory : PagedBytes} (hlow : 2 ^ 47 ≤ hhdmOffset) (hhigh : hhdmOffset < 2 ^ 64)
    (hfits : 25 + argv.length + envv.length ≤ 512 * userStackPages) :
    (∃ t, stackGenerateUser hhdmOffset random elf atBase executableBase argv envv (.created memory) = .ok t ∧
      t.StackBuilt argv envv) ↔
    (argv.length + envv.length) % 2 = 1 ∧ total argv < 2 ^ 31 ∧ total envv < 2 ^ 31 ∧
      memory.Ready userHeapStart (16 + total argv + total envv) := by
  simp only [stackGenerateUser_ok_iff hlow hhigh hfits]
  constructor
  · rintro ⟨t, ⟨hready, rfl⟩, hbuilt⟩
    obtain ⟨hodd, hargv, henvv⟩ := (built_stackBuilt_iff hfits).mp hbuilt
    exact ⟨hodd, hargv, henvv, (heapReady_iff hargv henvv).mp hready⟩
  · rintro ⟨hodd, hargv, henvv, hready⟩
    exact ⟨_, ⟨(heapReady_iff hargv henvv).mpr hready, rfl⟩, (built_stackBuilt_iff hfits).mpr ⟨hodd, hargv, henvv⟩⟩

/-- `"sh"`. -/
def shString : CStr := ⟨[0x73, 0x68], by decide⟩

/-- A program with one argument, whose heap is mapped because a segment lies there. -/
theorem stackGenerateUser_builds_sh :
    ∃ t, stackGenerateUser 0xffff800000000000 (fun _ => 7) ⟨2, 0x401000, 64, 56, 1, [(1, 0x400000)]⟩ 0 0 [shString] []
      (.created ⟨fun _ => true, fun _ => 0⟩) = .ok t ∧ t.StackBuilt [shString] [] :=
  (stackGenerateUser_builds_iff (by norm_num) (by norm_num) (by decide)).mpr
    ⟨by decide, by decide, by decide, fun _ _ => rfl⟩

/-- With no page at the heap the first store is a fault; with the heap mapped and one argument and
one variable, the stack pointer is not a multiple of 16. -/
theorem sh_without_stack :
    (¬ ∃ t, stackGenerateUser 0xffff800000000000 (fun _ => 7) ⟨2, 0x401000, 64, 56, 1, [(1, 0x400000)]⟩ 0 0 [shString] []
      (.created ⟨fun _ => false, fun _ => 0⟩) = .ok t ∧ t.StackBuilt [shString] []) ∧
    ¬ ∃ t, stackGenerateUser 0xffff800000000000 (fun _ => 7) ⟨2, 0x401000, 64, 56, 1, [(1, 0x400000)]⟩ 0 0 [shString]
      [shString] (.created ⟨fun _ => true, fun _ => 0⟩) = .ok t ∧ t.StackBuilt [shString] [shString] := by
  constructor
  · rintro ⟨t, hrun, -⟩
    have hready := ((stackGenerateUser_ok_iff (by norm_num) (by norm_num) (by decide)).mp hrun).1
    rw [heapReady_iff (by decide) (by decide)] at hready
    cases hready 0 (by decide)
  · rintro ⟨t, hrun, hbuilt⟩
    obtain ⟨-, rfl⟩ := (stackGenerateUser_ok_iff (by norm_num) (by norm_num) (by decide)).mp hrun
    have hodd := ((built_stackBuilt_iff (by decide)).mp hbuilt).1
    exact absurd hodd (by decide)

end DualFuse.Multitasking
