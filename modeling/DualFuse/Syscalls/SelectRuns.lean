import DualFuse.Syscalls.Select

/-! What `select` returns. The array of entries always has room for one more, the entries
that are reported are those of the last round that are ready, and each of them is a bit of its
own. The size of the sets is computed as an `int`, which is too narrow for the last few values
of `nfds`, and the number of entries is passed as one. -/

namespace DualFuse.Syscalls.Select

open Library Utility

variable {nfds n : ℕ} {sets sets' : Sets} {w : Which} {m : Bitmap} {c : Comp} {r : Round} {rest : List Round}
  {p : Which × ℕ} {ps reported : List (Which × ℕ)} {fds : List PollFd} {files : ℕ → PolledFile}

/-! ### The array -/

/-- There is room for one more entry, or the array ends right behind it. -/
def Room (c : Comp) : Prop := 8 * c.fds.length < c.compLength ∧ c.compLength % 8 = 0

theorem Room.selectAdd (h : Room c) (fd events : ℕ) :
    ∃ n, c.selectAdd fd events = .ok ⟨c.fds ++ [⟨fd, events, 0⟩], n⟩ ∧ Room ⟨c.fds ++ [⟨fd, events, 0⟩], n⟩ := by
  obtain ⟨hroom, halign⟩ := h
  unfold Comp.selectAdd
  refine ⟨_, if_pos ?_, ?_⟩
  · split_ifs <;> omega
  · unfold Room
    rw [List.length_append, List.length_singleton]
    split_ifs <;> constructor <;> dsimp only <;> omega

theorem Room.addBits (h : Room c) {l : List ℕ} (hl : ∀ i ∈ l, i / 8 < m.size) :
    ∃ n, l.foldlM (addBit m w) c =
        .ok ⟨c.fds ++ (l.filter fun i => BitArray.get m.bytes i).map fun i => entry (w, i), n⟩ ∧
      Room ⟨c.fds ++ (l.filter fun i => BitArray.get m.bytes i).map fun i => entry (w, i), n⟩ := by
  induction l generalizing c with
  | nil =>
    rw [List.filter_nil, List.map_nil, List.append_nil]
    exact ⟨c.compLength, rfl, h⟩
  | cons i l ih =>
    have hrest (j : ℕ) (hj : j ∈ l) : j / 8 < m.size := hl j (List.mem_cons_of_mem i hj)
    have hbit : m.selectBitmap i = .ok (BitArray.get m.bytes i) := if_pos (hl i List.mem_cons_self)
    rw [List.foldlM_cons, addBit, hbit, Exec.ok_bind]
    cases hget : BitArray.get m.bytes i with
    | false =>
      rw [List.filter_cons_of_neg (by rw [hget]; decide)]
      exact ih h hrest
    | true =>
      obtain ⟨n, hadd, hroom⟩ := h.selectAdd i (ask w)
      obtain ⟨n', hall, hroom'⟩ := ih hroom hrest
      rw [List.filter_cons_of_pos hget, List.map_cons, if_pos rfl, hadd, Exec.ok_bind, hall]
      rw [List.append_assoc] at hroom' ⊢
      exact ⟨n', rfl, hroom'⟩

/-- The sets are as large as the call takes them to be. -/
def Sized (nfds : ℕ) (sets : Sets) : Prop := ∀ w m, sets w = some m → m.size = (nfds + 7) / 8

theorem Room.addSet (h : Room c) (hsize : Sized nfds sets) (w : Which) :
    ∃ n, addSet nfds sets w c = .ok ⟨c.fds ++ (members nfds sets w).map fun i => entry (w, i), n⟩ ∧
      Room ⟨c.fds ++ (members nfds sets w).map fun i => entry (w, i), n⟩ := by
  unfold Select.addSet members
  cases hset : sets w with
  | none =>
    rw [List.map_nil, List.append_nil]
    exact ⟨c.compLength, rfl, h⟩
  | some m =>
    refine h.addBits fun i hi => ?_
    have := List.mem_range.mp hi
    rw [hsize w m hset]
    omega

/-- Collecting the entries does not fail. -/
theorem addSets_eq (hsize : Sized nfds sets) : ∃ n, addSets nfds sets = .ok ⟨(entries nfds sets).map entry, n⟩ := by
  have hempty : Room ⟨[], 8⟩ := ⟨by decide, by decide⟩
  obtain ⟨n₁, hread, hroom⟩ := hempty.addSet hsize .read
  obtain ⟨n₂, hwrite, hroom⟩ := hroom.addSet hsize .write
  obtain ⟨n₃, hexcept, -⟩ := hroom.addSet hsize .except
  refine ⟨n₃, ?_⟩
  rw [addSets, hread, Exec.ok_bind, hwrite, Exec.ok_bind, hexcept]
  simp [entries, Function.comp_def]

/-! ### The sets are cleared -/

theorem toZero_of_le (h : nfds ≤ 2 ^ 31 - 8) : intToSize (toZero nfds) = (nfds + 7) / 8 := by
  have hint : wrapInt (wrapInt ((nfds : ℤ) + 8) - 1) = nfds + 7 := by
    unfold wrapInt
    simp only [Int.bmod_def]
    omega
  have hdiv : toZero nfds = (((nfds + 7) / 8 : ℕ) : ℤ) := by
    rw [toZero, hint, Int.tdiv_eq_ediv_of_nonneg (by omega)]
    omega
  rw [hdiv, intToSize_of_nonneg (by omega)]

theorem toZero_of_gt (h : 2 ^ 31 - 8 < nfds) (hint : nfds < 2 ^ 31) : (nfds + 7) / 8 < intToSize (toZero nfds) := by
  have hwrap : wrapInt (wrapInt ((nfds : ℤ) + 8) - 1) = nfds + 7 - 2 ^ 32 := by
    unfold wrapInt
    simp only [Int.bmod_def]
    omega
  have hdiv : toZero nfds = -((2 ^ 32 - 7 - nfds) / 8) := by
    rw [toZero, hwrap, show (nfds : ℤ) + 7 - 2 ^ 32 = -(2 ^ 32 - 7 - nfds) by ring, Int.neg_tdiv,
      Int.tdiv_eq_ediv_of_nonneg (by omega)]
  rw [hdiv, intToSize]
  omega

/-- A set whose bytes are zero. -/
def Bitmap.cleared (nfds : ℕ) (m : Bitmap) : Bitmap :=
  { m with bytes := fun i => if i < (nfds + 7) / 8 then 0 else m.bytes i }

theorem zeroSet_of_le (h : nfds ≤ 2 ^ 31 - 8) (hsize : Sized nfds sets) (w : Which) :
    zeroSet nfds sets w = .ok (Function.update sets w ((sets w).map (Bitmap.cleared nfds))) := by
  unfold zeroSet
  cases hset : sets w with
  | none =>
    rw [Option.map_none, ← hset, Function.update_eq_self, hset]
  | some m =>
    rw [toZero_of_le h]
    dsimp only
    rw [Bitmap.zero, if_pos (hsize w m hset).ge, Exec.ok_bind]
    rfl

theorem Sized.update (hsize : Sized nfds sets) (w : Which) :
    Sized nfds (Function.update sets w ((sets w).map (Bitmap.cleared nfds))) := by
  intro w' m hset
  by_cases hw : w' = w
  · rw [hw, Function.update_self] at hset
    obtain ⟨m', hm', rfl⟩ := Option.map_eq_some_iff.mp hset
    exact hsize w m' hm'
  · rw [Function.update_of_ne hw] at hset
    exact hsize w' m hset

theorem clearSets_of_le (h : nfds ≤ 2 ^ 31 - 8) (hsize : Sized nfds sets) :
    clearSets nfds sets = .ok fun w => (sets w).map (Bitmap.cleared nfds) := by
  have hread := hsize.update .read
  rw [clearSets, zeroSet_of_le h hsize, Exec.ok_bind, zeroSet_of_le h hread, Exec.ok_bind,
    zeroSet_of_le h (hread.update .write)]
  refine congrArg _ (funext fun w => ?_)
  cases w <;> rfl

theorem clearSets_of_none (h : ∀ w, sets w = none) :
    clearSets nfds sets = .ok fun w => (sets w).map (Bitmap.cleared nfds) := by
  have hzero (w : Which) : zeroSet nfds sets w = .ok sets := by rw [zeroSet, h w]
  rw [clearSets, hzero, Exec.ok_bind, hzero, Exec.ok_bind, hzero]
  exact congrArg _ (funext fun w => by rw [h w]; rfl)

theorem clearSets_of_gt (h : 2 ^ 31 - 8 < nfds) (hint : nfds < 2 ^ 31) (hsize : Sized nfds sets)
    (hsome : ∃ w, sets w ≠ none) : clearSets nfds sets = .error .fault := by
  have hfault (w : Which) (m : Bitmap) (hset : sets w = some m) : zeroSet nfds sets w = .error .fault := by
    have := toZero_of_gt h hint
    rw [zeroSet, hset]
    dsimp only
    rw [Bitmap.zero, if_neg (by rw [hsize w m hset]; omega), Exec.error_bind]
  have hskip (w : Which) (hset : sets w = none) : zeroSet nfds sets w = .ok sets := by rw [zeroSet, hset]
  unfold clearSets
  cases hread : sets .read with
  | some m => rw [hfault .read m hread, Exec.error_bind]
  | none =>
    rw [hskip .read hread, Exec.ok_bind]
    cases hwrite : sets .write with
    | some m => rw [hfault .write m hwrite, Exec.error_bind]
    | none =>
      rw [hskip .write hwrite, Exec.ok_bind]
      cases hexcept : sets .except with
      | some m => exact hfault .except m hexcept
      | none =>
        obtain ⟨w, hw⟩ := hsome
        cases w
        · exact absurd hread hw
        · exact absurd hwrite hw
        · exact absurd hexcept hw

/-! ### Polling -/

theorem ask_pollrdnorm (w : Which) : ask w &&& pollrdnorm = 0 := by cases w <;> rfl

/-- No entry asks for `POLLRDNORM`. -/
def Asked (e : PollFd) : Prop := e.events &&& pollrdnorm = 0

theorem pollEntry_fd (r : Round) (e : PollFd) : (r.pollEntry e).fd = e.fd := by
  unfold Round.pollEntry
  cases r.files e.fd with
  | closed => rfl
  | plain => dsimp only; split_ifs <;> rfl
  | polled _ => rfl

theorem pollEntry_events {e : PollFd} (h : Asked e) (r : Round) : (r.pollEntry e).events = e.events := by
  unfold Asked at h
  unfold Round.pollEntry
  cases r.files e.fd with
  | closed => rfl
  | plain => dsimp only; split_ifs <;> rfl
  | polled _ =>
    dsimp only
    rw [h, bne_self_eq_false, Bool.and_false, raise]
    rfl

/-- A round overwrites what the one before it found. -/
theorem pollEntry_pollEntry {e : PollFd} (h : Asked e) (r r' : Round) :
    r'.pollEntry (r.pollEntry e) = r'.pollEntry e := by
  have hfd := pollEntry_fd r e
  have hevents := pollEntry_events h r
  generalize r.pollEntry e = e' at hfd hevents
  unfold Round.pollEntry
  rw [hfd, hevents]

theorem Asked.pollEntry {e : PollFd} (h : Asked e) (r : Round) : Asked (r.pollEntry e) := by
  unfold Asked
  rw [pollEntry_events h r]
  exact h

theorem map_pollEntry_map (h : ∀ e ∈ fds, Asked e) (r r' : Round) :
    (fds.map r.pollEntry).map r'.pollEntry = fds.map r'.pollEntry := by
  rw [List.map_map]
  exact List.map_congr_left fun e he => pollEntry_pollEntry (h e he) r r'

theorem lastRound_map (h : ∀ e ∈ fds, Asked e) (r r' : Round) (rest : List Round) :
    lastRound (fds.map r.pollEntry) r' rest = lastRound fds r' rest := by
  induction rest generalizing r' with
  | nil => rfl
  | cons r'' rest ih => rw [lastRound, lastRound, map_pollEntry_map h, ih]

/-- The entries are left as the last round finds them. -/
theorem pollRounds_fst (h : ∀ e ∈ fds, Asked e) (r : Round) (rest : List Round) :
    (pollRounds fds r rest).1 = fds.map (lastRound fds r rest).pollEntry := by
  induction rest generalizing fds r with
  | nil => rfl
  | cons r' rest ih =>
    unfold pollRounds lastRound
    dsimp only
    by_cases hstop : ready (fds.map r.pollEntry) > 0 ∨ r.sigexit = true
    · rw [if_pos hstop, if_pos hstop]
    · rw [if_neg hstop, if_neg hstop]
      have hasked : ∀ e ∈ fds.map r.pollEntry, Asked e := by
        intro e he
        obtain ⟨e', he', rfl⟩ := List.mem_map.mp he
        exact (h e' he').pollEntry r
      rw [ih hasked, lastRound_map h, map_pollEntry_map h]

/-- Those that are not looked at stay as they are. -/
theorem poll_fst (h : ∀ e ∈ fds, Asked e) {nfds : ℤ} {k : ℕ} (hok : (poll fds nfds r rest).2 = .ok k) :
    (poll fds nfds r rest).1 =
      (fds.take nfds.toNat).map (lastRound (fds.take nfds.toNat) r rest).pollEntry ++ fds.drop nfds.toNat := by
  unfold poll at hok ⊢
  by_cases hneg : nfds < 0
  · rw [if_pos hneg] at hok
    cases hok
  · rw [if_neg hneg]
    dsimp only
    rw [pollRounds_fst fun e he => h e (List.mem_of_mem_take he)]

/-! ### Reporting -/

/-- The entry for a bit of a set, reported there and nowhere else if `b` holds. -/
structure Marks (e : PollFd) (p : Which × ℕ) (b : Prop) : Prop where
  fd : e.fd = p.2
  reports : ∀ w, e.reports w = true ↔ w = p.1 ∧ b
  revents : e.revents = 0 → ¬b

theorem marks_entry (p : Which × ℕ) : Marks (entry p) p False where
  fd := rfl
  reports w := by
    rw [and_false, iff_false]
    cases w <;> simp [PollFd.reports, entry]
  revents _ := id

/-- The tests for a set see the bits it asks for. -/
theorem reports_iff (w : Which) (fd v : ℕ) (w' : Which) :
    (⟨fd, ask w, v⟩ : PollFd).reports w' = true ↔ w' = w ∧ v &&& ask w ≠ 0 := by
  have hexcept : v &&& (pollpri ||| pollerr) ≠ 0 ↔ v &&& pollpri ≠ 0 ∨ v &&& pollerr ≠ 0 := by
    rw [Nat.and_or_distrib_left, Ne, Nat.or_eq_zero_iff, not_and_or]
  cases w <;> cases w' <;> simp [PollFd.reports, ask, pollin, pollout, pollpri, pollerr] at hexcept ⊢
  exact hexcept.symm

theorem marks_pollEntry (r : Round) (p : Which × ℕ) : Marks (r.pollEntry (entry p)) p (Ready p.1 (r.files p.2)) := by
  obtain ⟨w, i⟩ := p
  have hasked : Asked (entry (w, i)) := ask_pollrdnorm w
  have hevents := pollEntry_events hasked r
  have hfd := pollEntry_fd r (entry (w, i))
  obtain ⟨v, hv⟩ : ∃ v, r.pollEntry (entry (w, i)) = ⟨i, ask w, v⟩ :=
    ⟨(r.pollEntry (entry (w, i))).revents, by rw [PollFd.mk.injEq]; exact ⟨hfd, hevents, rfl⟩⟩
  have hready : Ready w (r.files i) ↔ v &&& ask w ≠ 0 := by
    have hrevents := congrArg PollFd.revents hv
    unfold Round.pollEntry entry at hrevents
    dsimp only at hrevents
    cases hfile : r.files i with
    | closed =>
      rw [hfile] at hrevents
      rw [← hrevents]
      simp [Ready]
    | plain =>
      rw [hfile] at hrevents
      rw [← hrevents]
      cases w <;> simp [Ready, ask, pollin, pollout, pollpri, pollerr]
    | polled internalPoll =>
      rw [hfile] at hrevents
      rw [← hrevents]
      rfl
  rw [hv]
  refine ⟨rfl, fun w' => ?_, ?_⟩
  · rw [reports_iff, hready]
  · intro hzero
    dsimp only at hzero
    rw [hready, hzero]
    simp

/-- What reporting makes of the sets. -/
structure After (sets sets' : Sets) (reported : List (Which × ℕ)) : Prop where
  null : ∀ w, sets w = none → sets' w = none
  set : ∀ w m, sets w = some m → ∃ m', sets' w = some m' ∧ m'.size = m.size ∧
    ∀ i, BitArray.get m'.bytes i = (BitArray.get m.bytes i || decide ((w, i) ∈ reported))

theorem After.refl (sets : Sets) : After sets sets [] where
  null _ h := h
  set w m h := ⟨m, h, rfl, fun i => by simp⟩

theorem After.trans {sets'' : Sets} {l l' : List (Which × ℕ)} (h : After sets sets' l) (h' : After sets' sets'' l') :
    After sets sets'' (l ++ l') where
  null w hw := h'.null w (h.null w hw)
  set w m hw := by
    obtain ⟨m', hm', hsize, hget⟩ := h.set w m hw
    obtain ⟨m'', hm'', hsize', hget'⟩ := h'.set w m' hm'
    refine ⟨m'', hm'', hsize'.trans hsize, fun i => ?_⟩
    rw [hget' i, hget i, Bool.or_assoc, ← Bool.decide_or]
    simp only [List.mem_append]

/-- One bit is set. -/
theorem after_set {i : ℕ} (hset : sets w = some m) :
    After sets (Function.update sets w (some { m with bytes := BitArray.set m.bytes i true })) [(w, i)] where
  null w' hw' := by
    have hne : w' ≠ w := fun heq => by
      rw [heq, hset] at hw'
      cases hw'
    rw [Function.update_of_ne hne, hw']
  set w' m' hw' := by
    by_cases heq : w' = w
    · subst heq
      rw [hset] at hw'
      cases hw'
      refine ⟨_, Function.update_self .., rfl, fun j => ?_⟩
      rw [BitArray.get_set]
      by_cases hj : j = i
      · simp [hj]
      · simp [hj]
    · refine ⟨m', by rw [Function.update_of_ne heq, hw'], rfl, fun j => ?_⟩
      simp [heq]

theorem reportAll_eq {e : PollFd} {b : Prop} [Decidable b] (hmarks : Marks e p b) {v : ℕ} {m : Bitmap}
    (hset : sets p.1 = some m) (hsize : p.2 / 8 < m.size) :
    reportAll (sets, v) e =
      .ok (if b then (Function.update sets p.1 (some { m with bytes := BitArray.set m.bytes p.2 true }), v + 1)
        else (sets, v)) := by
  obtain ⟨w, i⟩ := p
  have hskip (w' : Which) (s : Sets × ℕ) (h : ¬(w' = w ∧ b)) : report e w' s = .ok s :=
    if_neg fun hreports => h ((hmarks.reports w').mp hreports)
  have htake (hb : b) : report e w (sets, v) =
      .ok (Function.update sets w (some { m with bytes := BitArray.set m.bytes i true }), v + 1) := by
    unfold report
    rw [if_pos ((hmarks.reports w).mpr ⟨rfl, hb⟩)]
    dsimp only at hset hsize ⊢
    rw [hset]
    dsimp only
    rw [hmarks.fd, Bitmap.selectBitmapSet, if_pos hsize, Exec.ok_bind]
  unfold reportAll
  by_cases hb : b
  · rw [if_neg fun hzero => hmarks.revents hzero hb, if_pos hb]
    cases w with
    | read => rw [htake hb, Exec.ok_bind, hskip .write _ (by simp), Exec.ok_bind, hskip .except _ (by simp)]
    | write => rw [hskip .read _ (by simp), Exec.ok_bind, htake hb, Exec.ok_bind, hskip .except _ (by simp)]
    | except => rw [hskip .read _ (by simp), Exec.ok_bind, hskip .write _ (by simp), Exec.ok_bind, htake hb]
  · have hnot (w' : Which) : ¬(w' = w ∧ b) := fun h => hb h.2
    rw [hskip .read _ (hnot _), Exec.ok_bind, hskip .write _ (hnot _), Exec.ok_bind, hskip .except _ (hnot _), if_neg hb]
    split_ifs <;> rfl

/-- The entries are reported one by one. -/
theorem reportAll_run {g : Which × ℕ → PollFd} {b : Which × ℕ → Prop} [DecidablePred b]
    (hmarks : ∀ p ∈ ps, Marks (g p) p (b p)) (v : ℕ)
    (hsets : ∀ p ∈ ps, ∃ m, sets p.1 = some m ∧ p.2 / 8 < m.size) :
    ∃ sets', (ps.map g).foldlM reportAll (sets, v) = .ok (sets', v + (ps.filter fun p => b p).length) ∧
      After sets sets' (ps.filter fun p => b p) := by
  induction ps generalizing sets v with
  | nil => exact ⟨sets, rfl, .refl sets⟩
  | cons p ps ih =>
    obtain ⟨m, hset, hsize⟩ := hsets p List.mem_cons_self
    have hps (q : Which × ℕ) (hq : q ∈ ps) := hsets q (List.mem_cons_of_mem p hq)
    have hmarksps (q : Which × ℕ) (hq : q ∈ ps) := hmarks q (List.mem_cons_of_mem p hq)
    rw [List.map_cons, List.foldlM_cons, reportAll_eq (hmarks p List.mem_cons_self) hset hsize, Exec.ok_bind]
    by_cases hb : b p
    · rw [if_pos hb, List.filter_cons_of_pos (by simpa using hb), List.length_cons]
      have hafter : After sets _ [p] := after_set (w := p.1) (i := p.2) hset
      obtain ⟨sets', hrun, hafter'⟩ := ih hmarksps (v + 1) fun q hq => by
        obtain ⟨mq, hq, hqsize⟩ := hps q hq
        obtain ⟨mq', hq', hsame, -⟩ := hafter.set q.1 mq hq
        exact ⟨mq', hq', by rw [hsame]; exact hqsize⟩
      exact ⟨sets', by rw [hrun, Nat.add_assoc, Nat.add_comm 1], hafter.trans hafter'⟩
    · rw [if_neg hb, List.filter_cons_of_neg (by simpa using hb)]
      exact ih hmarksps v hps

/-! ### The bits -/

theorem mem_members {i : ℕ} : i ∈ members nfds sets w ↔
    ∃ m, sets w = some m ∧ i < nfds ∧ BitArray.get m.bytes i = true := by
  unfold members
  cases hset : sets w with
  | none => simp
  | some m => simp

theorem mem_entries {i : ℕ} : (w, i) ∈ entries nfds sets ↔
    ∃ m, sets w = some m ∧ i < nfds ∧ BitArray.get m.bytes i = true := by
  rw [← mem_members]
  cases w <;> simp [entries]

theorem nodup_entries : (entries nfds sets).Nodup := by
  have hmembers (w : Which) : ((members nfds sets w).map (Prod.mk w)).Nodup := by
    refine List.Nodup.map (fun i j h => (Prod.mk.inj h).2) ?_
    unfold members
    cases sets w with
    | none => exact List.nodup_nil
    | some m => exact List.nodup_range.filter _
  have happart (w w' : Which) (hne : w ≠ w') :
      List.Disjoint ((members nfds sets w).map (Prod.mk w)) ((members nfds sets w').map (Prod.mk w')) := by
    intro p hp hp'
    obtain ⟨i, -, rfl⟩ := List.mem_map.mp hp
    obtain ⟨j, -, heq⟩ := List.mem_map.mp hp'
    exact hne (Prod.mk.inj heq).1.symm
  refine List.nodup_flatMap.mpr ⟨fun w _ => hmembers w, ?_⟩
  simp [happart]

/-- The bits of one set are the pairs reported for it. -/
theorem bits_eq {size : ℕ} (hnodup : reported.Nodup) (hlt : ∀ i, (w, i) ∈ reported → i < 8 * size)
    (hget : ∀ i < 8 * size, BitArray.get m.bytes i = decide ((w, i) ∈ reported)) (hsize : m.size = size) :
    m.bits = reported.countP fun p => p.1 = w := by
  have hperm : ((List.range (8 * size)).filter fun i => decide ((w, i) ∈ reported)).Perm
      ((reported.filter fun p => p.1 = w).map Prod.snd) := by
    refine (List.perm_ext_iff_of_nodup (List.nodup_range.filter _) ?_).mpr fun i => ?_
    · refine List.Nodup.map_on (fun p hp q hq heq => ?_) (hnodup.filter _)
      have hp := of_decide_eq_true (List.mem_filter.mp hp).2
      have hq := of_decide_eq_true (List.mem_filter.mp hq).2
      exact Prod.ext (hp.trans hq.symm) heq
    · rw [List.mem_filter, List.mem_range, decide_eq_true_eq, List.mem_map]
      constructor
      · rintro ⟨-, hi⟩
        exact ⟨(w, i), List.mem_filter.mpr ⟨hi, decide_eq_true rfl⟩, rfl⟩
      · rintro ⟨⟨w', i'⟩, hp, rfl⟩
        obtain ⟨hmem, hw⟩ := List.mem_filter.mp hp
        have heq : w' = w := of_decide_eq_true hw
        rw [heq] at hmem
        exact ⟨hlt i' hmem, hmem⟩
  have hlength := hperm.length_eq
  rw [List.length_map] at hlength
  rw [List.countP_eq_length_filter, ← hlength, ← List.countP_eq_length_filter, Bitmap.bits, hsize]
  exact List.countP_congr fun i hi => by rw [hget i (List.mem_range.mp hi)]

theorem length_eq_countP (reported : List (Which × ℕ)) : reported.length =
    (reported.countP fun p => p.1 = .read) + (reported.countP fun p => p.1 = .write) +
      reported.countP fun p => p.1 = .except := by
  induction reported with
  | nil => rfl
  | cons p reported ih =>
    obtain ⟨w, i⟩ := p
    rw [List.length_cons, List.countP_cons, List.countP_cons, List.countP_cons, ih]
    cases w <;> simp <;> omega

/-- The cleared sets have no bits. -/
theorem get_cleared (m : Bitmap) {i : ℕ} (hi : i < 8 * ((nfds + 7) / 8)) :
    BitArray.get (m.cleared nfds).bytes i = false := by
  have hbyte : (m.cleared nfds).bytes (i / 8) = 0 := if_pos (by omega)
  rw [BitArray.get_eq, hbyte]
  exact BitVec.getLsbD_zero

/-- The number of bits is the number of pairs reported. -/
theorem bits_after (hsize : Sized nfds sets) (hnodup : reported.Nodup) (hsub : ∀ p ∈ reported, p ∈ entries nfds sets)
    (hafter : After (fun w => (sets w).map (Bitmap.cleared nfds)) sets' reported) : bits sets' = reported.length := by
  have hcount (w : Which) : (sets' w).elim 0 Bitmap.bits = reported.countP fun p => p.1 = w := by
    cases hset : sets w with
    | none =>
      have hnone : reported.countP (fun p => p.1 = w) = 0 := by
        rw [List.countP_eq_zero]
        rintro ⟨w', i⟩ hp hw
        obtain rfl : w' = w := of_decide_eq_true hw
        obtain ⟨m, hm, -⟩ := mem_entries.mp (hsub _ hp)
        rw [hset] at hm
        cases hm
      rw [hafter.null w (by rw [hset]; rfl), hnone]
      rfl
    | some m =>
      have hm := hsize w m hset
      obtain ⟨m', hm', hsame, hget⟩ := hafter.set w (m.cleared nfds) (by rw [hset]; rfl)
      have hsame : m'.size = (nfds + 7) / 8 := hsame.trans hm
      rw [hm']
      refine bits_eq hnodup (fun i hi => ?_) (fun i hi => ?_) hsame
      · obtain ⟨-, -, hlt, -⟩ := mem_entries.mp (hsub _ hi)
        omega
      · rw [hget i, get_cleared m hi, Bool.false_or]
  rw [length_eq_countP, bits]
  exact congrArg₂ _ (congrArg₂ _ (hcount .read) (hcount .write)) (hcount .except)

/-! ### The call -/

/-- The entries that are polled and found ready. -/
def found (nfds : ℕ) (sets : Sets) (r : Round) (rest : List Round) : List (Which × ℕ) :=
  (polledEntries nfds sets).filter fun p => Ready p.1 ((finalRound nfds sets r rest).files p.2)

theorem asked_entries : ∀ e ∈ (entries nfds sets).map entry, Asked e := by
  intro e he
  obtain ⟨p, -, rfl⟩ := List.mem_map.mp he
  exact ask_pollrdnorm p.1

theorem pollResult_fst {k : ℕ} (hok : (pollResult nfds sets r rest).2 = .ok k) :
    ∃ others : List (Which × ℕ), (∀ p ∈ others, p ∈ entries nfds sets) ∧ (pollResult nfds sets r rest).1 =
      (polledEntries nfds sets).map (fun p => (finalRound nfds sets r rest).pollEntry (entry p)) ++
        others.map entry := by
  unfold pollResult finalRound polledEntries at *
  generalize wrapInt (entries nfds sets).length = n at hok ⊢
  refine ⟨(entries nfds sets).drop n.toNat, fun p hp => List.mem_of_mem_drop hp, ?_⟩
  rw [poll_fst asked_entries hok, ← List.map_take, ← List.map_drop, List.map_map]
  rfl

theorem polledEntries_subset (h : p ∈ polledEntries nfds sets) : p ∈ entries nfds sets := List.mem_of_mem_take h

/-- The answers of `poll` become bits of the cleared sets. -/
theorem report_run (hsize : Sized nfds sets) {k : ℕ} (hok : (pollResult nfds sets r rest).2 = .ok k) :
    ∃ sets', (pollResult nfds sets r rest).1.foldlM reportAll (fun w => (sets w).map (Bitmap.cleared nfds), 0) =
        .ok (sets', (found nfds sets r rest).length) ∧
      After (fun w => (sets w).map (Bitmap.cleared nfds)) sets' (found nfds sets r rest) := by
  have hinside (p : Which × ℕ) (hp : p ∈ entries nfds sets) :
      ∃ m, (sets p.1).map (Bitmap.cleared nfds) = some m ∧ p.2 / 8 < m.size := by
    obtain ⟨m, hm, hlt, -⟩ := mem_entries.mp hp
    have hm' : (m.cleared nfds).size = (nfds + 7) / 8 := hsize p.1 m hm
    exact ⟨m.cleared nfds, by rw [hm]; rfl, by omega⟩
  obtain ⟨others, hrest, hfst⟩ := pollResult_fst hok
  rw [hfst, List.foldlM_append]
  obtain ⟨sets₁, hrun, hafter⟩ : ∃ sets', List.foldlM reportAll (fun w => (sets w).map (Bitmap.cleared nfds), 0) _ =
      .ok (sets', _) ∧ _ := reportAll_run
    (fun p _ => marks_pollEntry (finalRound nfds sets r rest) p) 0 fun p hp => hinside p (polledEntries_subset hp)
  obtain ⟨sets₂, hrun', hafter'⟩ : ∃ sets', (others.map entry).foldlM reportAll (sets₁, _) = .ok (sets', _) ∧ _ :=
    reportAll_run
    (fun p _ => marks_entry p) (found nfds sets r rest).length fun p hp => by
      obtain ⟨m, hm, hlt⟩ := hinside p (hrest p hp)
      obtain ⟨m', hm', hsame, -⟩ := hafter.set p.1 m hm
      exact ⟨m', hm', by rw [hsame]; exact hlt⟩
  have hnone (l : List (Which × ℕ)) : (l.filter fun _ => decide False) = [] := by simp
  rw [hnone, List.length_nil, Nat.add_zero] at hrun'
  rw [hnone] at hafter'
  rw [hrun, Exec.ok_bind, Nat.zero_add]
  have hboth := hafter.trans hafter'
  rw [List.append_nil] at hboth
  unfold found at hrun' ⊢
  exact ⟨sets₂, hrun', hboth⟩

theorem selected_iff (hsize : Sized nfds sets)
    (hafter : After (fun w => (sets w).map (Bitmap.cleared nfds)) sets' (found nfds sets r rest)) :
    Selected nfds sets sets' (finalRound nfds sets r rest).files (found nfds sets r rest).length ↔
      ∀ p ∈ entries nfds sets, p ∉ polledEntries nfds sets → ¬Ready p.1 ((finalRound nfds sets r rest).files p.2) := by
  have hnodup : (found nfds sets r rest).Nodup := (nodup_entries.sublist (List.take_sublist _ _)).filter _
  have hsub (p : Which × ℕ) (hp : p ∈ found nfds sets r rest) : p ∈ entries nfds sets :=
    polledEntries_subset (List.mem_filter.mp hp).1
  have hfound (w : Which) (i : ℕ) : (w, i) ∈ found nfds sets r rest ↔
      (w, i) ∈ polledEntries nfds sets ∧ Ready w ((finalRound nfds sets r rest).files i) := by
    rw [found, List.mem_filter, decide_eq_true_eq]
  -- a bit of the result is a pair that was found
  have hbit (w : Which) (m m' : Bitmap) (hm : sets w = some m) (hm' : sets' w = some m') {i : ℕ} (hi : i < 8 * m.size) :
      BitArray.get m'.bytes i = true ↔ (w, i) ∈ found nfds sets r rest := by
    obtain ⟨m'', hm'', -, hget⟩ := hafter.set w (m.cleared nfds) (by rw [hm]; rfl)
    rw [hm'] at hm''
    cases hm''
    rw [hsize w m hm] at hi
    rw [hget i, get_cleared m hi, Bool.false_or, decide_eq_true_eq]
  constructor
  · rintro hselected ⟨w, i⟩ hp hnot hready
    obtain ⟨m, hm, hlt, hget⟩ := mem_entries.mp hp
    obtain ⟨m', hm', -, hbits⟩ := hselected.set w m hm
    have hi : i < 8 * m.size := by
      rw [hsize w m hm]
      omega
    have hmem := (hbit w m m' hm hm' hi).mp ((hbits i hi).mpr ⟨hlt, hget, hready⟩)
    exact hnot ((hfound w i).mp hmem).1
  · intro hrest
    refine ⟨fun w hw => hafter.null w (by rw [hw]; rfl), fun w m hm => ?_, (bits_after hsize hnodup hsub hafter).symm⟩
    obtain ⟨m', hm', hsame, -⟩ := hafter.set w (m.cleared nfds) (by rw [hm]; rfl)
    refine ⟨m', hm', hsame, fun i hi => ?_⟩
    rw [hbit w m m' hm hm' hi, hfound]
    constructor
    · rintro ⟨hpolled, hready⟩
      obtain ⟨m₁, hm₁, hlt, hget⟩ := mem_entries.mp (polledEntries_subset hpolled)
      rw [hm] at hm₁
      cases hm₁
      exact ⟨hlt, hget, hready⟩
    · rintro ⟨hlt, hget, hready⟩
      refine ⟨?_, hready⟩
      by_contra hnot
      exact hrest (w, i) (mem_entries.mpr ⟨m, hm, hlt, hget⟩) hnot hready

/-- A set that is larger than an `int` can tell is cleared beyond its end. -/
theorem select_of_gt (h : 2 ^ 31 - 8 < nfds) (hint : nfds < 2 ^ 31) (hsize : Sized nfds sets)
    (hsome : ∃ w, sets w ≠ none) (r : Round) (rest : List Round) : select nfds sets r rest = .error .fault := by
  obtain ⟨n, hadd⟩ := addSets_eq hsize
  rw [select, hadd, Exec.ok_bind, clearSets_of_gt h hint hsize hsome, Exec.error_bind]

/-- All entries are polled where their number fits an `int`. -/
theorem polledEntries_of_lt (h : (entries nfds sets).length < 2 ^ 31) :
    polledEntries nfds sets = entries nfds sets := by
  rw [polledEntries, wrapInt_natCast h, Int.toNat_natCast, List.take_length]

/-- The call does what it is asked to if and only if the size of the sets can be computed, and the
entries that `poll` does not look at are not ready. -/
theorem selectsWell_iff (hint : nfds < 2 ^ 31) (hsize : Sized nfds sets) (r : Round) (rest : List Round) :
    SelectsWell nfds sets r rest ↔
      ((∀ w, sets w = none) ∨ nfds ≤ 2 ^ 31 - 8) ∧
      ((∃ k, (pollResult nfds sets r rest).2 = .ok k) → ∀ p ∈ entries nfds sets, p ∉ polledEntries nfds sets →
        ¬Ready p.1 ((finalRound nfds sets r rest).files p.2)) := by
  obtain ⟨n, hadd⟩ := addSets_eq hsize
  by_cases hclear : (∀ w, sets w = none) ∨ nfds ≤ 2 ^ 31 - 8
  · rw [and_iff_right hclear]
    have hcleared : clearSets nfds sets = .ok fun w => (sets w).map (Bitmap.cleared nfds) :=
      hclear.elim clearSets_of_none fun hle => clearSets_of_le hle hsize
    have hselect : select nfds sets r rest =
        answer (fun w => (sets w).map (Bitmap.cleared nfds)) (pollResult nfds sets r rest) := by
      rw [select, hadd, Exec.ok_bind, hcleared, Exec.ok_bind, pollResult, List.length_map]
    have hreport (k : ℕ) (hk : (pollResult nfds sets r rest).2 = .ok k) := report_run hsize hk
    unfold SelectsWell
    rw [hselect]
    generalize pollResult nfds sets r rest = polled at hreport ⊢
    obtain ⟨fds, res⟩ := polled
    cases res with
    | error e =>
      refine iff_of_true ⟨_, rfl, fun sets' ret h => by cases h⟩ ?_
      rintro ⟨k, hk⟩
      cases hk
    | ok k =>
      obtain ⟨sets', hrun, hafter⟩ := hreport k rfl
      have hselected := selected_iff hsize hafter
      rw [answer, hrun, Exec.ok_bind]
      constructor
      · rintro ⟨res, hres, hwell⟩ -
        cases hres
        exact hselected.mp (hwell _ _ rfl)
      · intro hrest
        refine ⟨_, rfl, fun sets'' ret h => ?_⟩
        cases h
        exact hselected.mpr (hrest ⟨k, rfl⟩)
  · obtain ⟨hsome, hgt⟩ := not_or.mp hclear
    refine iff_of_false ?_ fun h => hclear h.1
    rintro ⟨res, hres, -⟩
    rw [select_of_gt (by omega) hint hsize (not_forall.mp hsome)] at hres
    cases hres

/-- One set in memory of `size` bytes. -/
def readSet (byte : BitVec 8) (size : ℕ) : Sets
  | .read => some ⟨fun _ => byte, size⟩
  | _ => none

theorem sized_readSet (byte : BitVec 8) (nfds : ℕ) : Sized nfds (readSet byte ((nfds + 7) / 8)) := by
  intro w m h
  cases w with
  | read =>
    cases h
    rfl
  | write => cases h
  | except => cases h

/-- Descriptors 0 and 2 are asked for and 0 is a file. -/
theorem selectsWell_two :
    SelectsWell 4 (readSet 5 1) ⟨fun i => if i = 0 then .plain else .closed, false⟩ [] := by
  refine (selectsWell_iff (by norm_num) (sized_readSet 5 4) _ _).mpr ⟨Or.inr (by norm_num), fun _ p hp hnot => ?_⟩
  rw [polledEntries_of_lt (by decide)] at hnot
  exact absurd hp hnot

/-- With the largest `nfds` the size to clear is negative, which is a fault. -/
theorem full_select_faults :
    ¬SelectsWell (2 ^ 31 - 1) (readSet 0 ((2 ^ 31 - 1 + 7) / 8)) ⟨fun _ => .closed, false⟩ [] := by
  rintro ⟨res, hres, -⟩
  rw [select_of_gt (by norm_num) (by norm_num) (sized_readSet 0 _) ⟨.read, by simp [readSet]⟩] at hres
  cases hres

end DualFuse.Syscalls.Select
