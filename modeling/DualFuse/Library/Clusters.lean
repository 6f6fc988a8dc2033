import DualFuse.Library.Execution

/-! A row of numbers is gone through in clusters: numbers that follow each other are moved
with one transfer, others one by one. A look ahead decides whether a cluster goes on. What
the transfers do together is what moving each number by itself does. -/

namespace DualFuse.Library.Clusters

variable {σ : Type}

/-- A place of an array. -/
def entry (row : List ℕ) (i : ℕ) : Exec ℕ :=
  match row[i]? with
  | some b => .ok b
  | none => .error .fault

/-- The next number follows this one; the last place has no next. -/
def goesOn (next : ℕ → ℕ) (row : List ℕ) (required i b : ℕ) : Exec Bool :=
  if i + 1 = required then .ok false
  else do
    let b' ← entry row (i + 1)
    .ok (decide (b' = next b))

/-- Rounds from place `i` on, within a cluster since `start`, or in none; `done` numbers were
moved before. A zero ends the loop. -/
def loop (next : ℕ → ℕ) (row : List ℕ) (required : ℕ) (zero : σ → Exec σ)
    (transfer : (done first needed : ℕ) → σ → Exec σ) : (rounds i : ℕ) → Option ℕ → ℕ → σ → Exec σ
  | 0, _, _, _, s => .ok s
  | rounds + 1, i, start, done, s => do
    let b ← entry row i
    if b = 0 then zero s
    else do
      let on ← goesOn next row required i b
      if on then loop next row required zero transfer rounds (i + 1) (some (start.getD i)) done s
      else
        match start with
        | none => do
          let s ← transfer done b 1 s
          loop next row required zero transfer rounds (i + 1) none (done + 1) s
        | some start => do
          let first ← entry row start
          let s ← transfer done first (i - start + 1) s
          loop next row required zero transfer rounds (i + 1) none (done + (i - start + 1)) s

/-- Numbers in a row are moved, one after the other. -/
def moveRow (one : ℕ → ℕ → σ → σ) : (n done first : ℕ) → σ → σ
  | 0, _, _, s => s
  | n + 1, done, first, s => moveRow one n (done + 1) (first + 1) (one done first s)

/-- The numbers at `n` places of a row are moved, each by itself. -/
def moveEach (one : ℕ → ℕ → σ → σ) (row : List ℕ) : (n i : ℕ) → σ → σ
  | 0, _, s => s
  | n + 1, i, s => moveEach one row n (i + 1) (one i (row.getD i 0) s)

section Moves
variable {next : ℕ → ℕ} {row : List ℕ} {required z : ℕ} {zero : σ → Exec σ}
  {transfer : (done first needed : ℕ) → σ → Exec σ} {one : ℕ → ℕ → σ → σ}

theorem moveRow_eq_moveEach {n start b : ℕ} {s : σ} (h : ∀ k < n, row.getD (start + k) 0 = b + k) :
    moveRow one n start b s = moveEach one row n start s := by
  induction n generalizing start b s with
  | zero => rfl
  | succ n ih =>
    have hfirst : row.getD start 0 = b := h 0 (Nat.succ_pos n)
    rw [moveRow, moveEach, hfirst]
    refine ih fun k hk => ?_
    have hnext := h (k + 1) (by omega)
    rw [show start + 1 + k = start + (k + 1) by omega, hnext]
    omega

theorem moveEach_add (n m i : ℕ) (s : σ) :
    moveEach one row (n + m) i s = moveEach one row m (i + n) (moveEach one row n i s) := by
  induction n generalizing i s with
  | zero => rw [Nat.zero_add, moveEach, Nat.add_zero]
  | succ n ih =>
    rw [show n + 1 + m = n + m + 1 by omega, moveEach, ih, moveEach, show i + 1 + n = i + (n + 1) by omega]

/-- The places before `z` hold numbers that can be moved, and a cluster ends there. -/
structure Reaches (next : ℕ → ℕ) (row : List ℕ) (required z : ℕ) : Prop where
  le : z ≤ required
  held : ∀ i < z, ∃ b, row[i]? = some b ∧ b ≠ 0 ∧ next b = b + 1
  stops : z = required ∨ row[z]? = some 0

theorem entry_of_getElem? {i b : ℕ} (h : row[i]? = some b) : entry row i = .ok b := by rw [entry, h]

theorem getD_of_getElem? {i b : ℕ} (h : row[i]? = some b) : row.getD i 0 = b := by
  rw [List.getD_eq_getElem?_getD, h, Option.getD_some]

theorem Reaches.goesOn (h : Reaches next row required z) {i b : ℕ} (hi : i < z) (hb : row[i]? = some b) :
    ∃ on, goesOn next row required i b = .ok on ∧ (on = true → i + 1 < z ∧ row.getD (i + 1) 0 = b + 1) := by
  obtain ⟨b', hb', -, hnext⟩ := h.held i hi
  cases hb.symm.trans hb'
  unfold Clusters.goesOn
  by_cases hlast : i + 1 = required
  · rw [if_pos hlast]
    exact ⟨false, rfl, fun hon => by cases hon⟩
  rw [if_neg hlast]
  rcases Nat.lt_or_ge (i + 1) z with hlt | hge
  · obtain ⟨c, hc, -⟩ := h.held (i + 1) hlt
    rw [entry_of_getElem? hc, Exec.ok_bind]
    refine ⟨_, rfl, fun hon => ⟨hlt, ?_⟩⟩
    rw [getD_of_getElem? hc, ← hnext]
    exact of_decide_eq_true hon
  · obtain rfl : i + 1 = z := by omega
    have hzero := h.stops.resolve_left hlast
    rw [entry_of_getElem? hzero, Exec.ok_bind]
    refine ⟨_, rfl, fun hon => ?_⟩
    have heq : 0 = next b := of_decide_eq_true hon
    rw [hnext] at heq
    cases heq

/-- All numbers up to `z` are moved, from within a cluster that began at `start` as well. -/
theorem Reaches.loop_from (h : Reaches next row required z)
    (htransfer : ∀ done first needed s, done + needed ≤ z →
      transfer done first needed s = .ok (moveRow one needed done first s))
    (rounds m : ℕ) {i origin : ℕ} {start : Option ℕ} {s : σ} (hm : z = i + m) (horigin : start.getD i = origin)
    (hstart : ∀ o, start = some o → o < i ∧ i < z)
    (hrow : ∀ k ≤ i - origin, row.getD (origin + k) 0 = row.getD origin 0 + k) :
    loop next row required zero transfer (rounds + m) i start origin s =
      loop next row required zero transfer rounds z none z (moveEach one row (z - origin) origin s) := by
  induction m generalizing i origin start s with
  | zero =>
    cases start with
    | none =>
      obtain rfl : i = origin := horigin
      obtain rfl : z = i := hm
      rw [Nat.sub_self, moveEach]
      rfl
    | some o =>
      have := (hstart o rfl).2
      omega
  | succ m ih =>
    have hi : i < z := by omega
    have hle : origin ≤ i := by
      cases start with
      | none => exact horigin.ge
      | some o => exact (show o = origin from horigin) ▸ (hstart o rfl).1.le
    obtain ⟨b, hb, hne, -⟩ := h.held i hi
    obtain ⟨on, hon, hspec⟩ := h.goesOn hi hb
    rw [← Nat.add_assoc, loop, entry_of_getElem? hb, Exec.ok_bind, if_neg hne, hon, Exec.ok_bind]
    have hcurrent : b = row.getD origin 0 + (i - origin) := by
      have := hrow (i - origin) le_rfl
      rw [Nat.add_sub_cancel' hle, getD_of_getElem? hb] at this
      exact this
    cases on with
    | true =>
      -- the cluster goes on
      obtain ⟨hlt, hfollows⟩ := hspec rfl
      rw [if_pos rfl, horigin]
      refine ih (by omega) rfl (fun o ho => ?_) fun k hk => ?_
      · cases ho
        exact ⟨by omega, hlt⟩
      · rcases Nat.lt_or_ge k (i + 1 - origin) with hin | hend
        · exact hrow k (by omega)
        · obtain rfl : k = i + 1 - origin := by omega
          rw [show origin + (i + 1 - origin) = i + 1 by omega, hfollows]
          omega
    | false =>
      -- the cluster is moved
      have hmoved : moveRow one (i - origin + 1) origin (row.getD origin 0) s =
          moveEach one row (i - origin + 1) origin s := moveRow_eq_moveEach fun k hk => hrow k (by omega)
      have hrest : Clusters.loop next row required zero transfer (rounds + m) (i + 1) none (i + 1)
          (moveEach one row (i - origin + 1) origin s) = Clusters.loop next row required zero transfer rounds z none z
          (moveEach one row (z - (i + 1)) (i + 1) (moveEach one row (i - origin + 1) origin s)) := by
        refine ih (by omega) rfl (fun o ho => by cases ho) fun k hk => ?_
        obtain rfl : k = 0 := by omega
        rfl
      rw [show z - origin = (i - origin + 1) + (z - (i + 1)) by omega, moveEach_add,
        show origin + (i - origin + 1) = i + 1 by omega, ← hrest, if_neg Bool.false_ne_true]
      cases start with
      | none =>
        obtain rfl : i = origin := horigin
        rw [Nat.sub_self] at hmoved hcurrent ⊢
        dsimp only
        rw [htransfer i b 1 s (by omega), Exec.ok_bind, hcurrent, Nat.add_zero, ← hmoved]
        rfl
      | some o =>
        obtain rfl : o = origin := horigin
        obtain ⟨first, hfirst, -⟩ := h.held o (by omega)
        dsimp only
        rw [entry_of_getElem? hfirst, Exec.ok_bind, htransfer o first (i - o + 1) s (by omega), Exec.ok_bind,
          ← getD_of_getElem? hfirst, hmoved, show o + (i - o + 1) = i + 1 by omega]

/-- All numbers up to `z` are moved, and no cluster is open. -/
theorem Reaches.loop (h : Reaches next row required z)
    (htransfer : ∀ done first needed s, done + needed ≤ z →
      transfer done first needed s = .ok (moveRow one needed done first s)) (rounds : ℕ) (s : σ) :
    Clusters.loop next row required zero transfer (rounds + z) 0 none 0 s =
      Clusters.loop next row required zero transfer rounds z none z (moveEach one row z 0 s) := by
  refine h.loop_from htransfer rounds z (Nat.zero_add z).symm rfl (fun o ho => by cases ho) fun k hk => ?_
  obtain rfl : k = 0 := by omega
  rfl

end Moves

end DualFuse.Library.Clusters
