import Mathlib.Tactic

/-! Names between separators. A text is a first name and a list of names that each come
after a separator; splitting it gives the names back. Some names are skipped, and one
takes away the name before it: what is left of a list of names is its normal form. -/

namespace DualFuse.Library.PathText

variable {α : Type*} (sep : α)

/-- Each name after a separator. -/
def spread (names : List (List α)) : List α := names.flatMap (sep :: ·)

@[simp] theorem spread_nil : spread sep [] = [] := rfl

@[simp] theorem spread_cons (c : List α) (cs : List (List α)) : spread sep (c :: cs) = sep :: (c ++ spread sep cs) := rfl

@[simp] theorem spread_append (cs ds : List (List α)) : spread sep (cs ++ ds) = spread sep cs ++ spread sep ds :=
  List.flatMap_append

variable {sep}

/-- The separator behind the names is the one before them. -/
theorem spread_append_singleton (sep : α) (cs : List (List α)) :
    spread sep cs ++ [sep] = [sep] ++ cs.flatMap (· ++ [sep]) := by
  induction cs with
  | nil => rfl
  | cons c cs ih => simp [ih]

/-- A separator comes next, or nothing. -/
theorem head_spread (cs : List (List α)) : spread sep cs = [] ∨ (spread sep cs).head? = some sep := by
  cases cs with
  | nil => exact .inl rfl
  | cons c cs => exact .inr rfl

theorem spread_eq_nil_iff {cs : List (List α)} : spread sep cs = [] ↔ cs = [] := by
  cases cs <;> simp

theorem length_spread_filter_le (p : List α → Bool) (cs : List (List α)) :
    (spread sep (cs.filter p)).length ≤ (spread sep cs).length := by
  induction cs with
  | nil => exact le_rfl
  | cons c cs ih =>
    rw [List.filter_cons]
    split_ifs
    · simp only [spread_cons, List.length_cons, List.length_append]
      omega
    · simp only [spread_cons, List.length_cons, List.length_append]
      omega

variable [DecidableEq α]

/-- Every text is a first name and names after separators. -/
theorem exists_names (sep : α) (s : List α) : ∃ c cs, sep ∉ c ∧ (∀ d ∈ cs, sep ∉ d) ∧ s = c ++ spread sep cs := by
  induction s with
  | nil => exact ⟨[], [], by simp, by simp, rfl⟩
  | cons a s ih =>
    obtain ⟨c, cs, hc, hcs, rfl⟩ := ih
    by_cases ha : a = sep
    · refine ⟨[], c :: cs, by simp, ?_, by simp [ha]⟩
      simpa using ⟨hc, hcs⟩
    · exact ⟨a :: c, cs, by simp [Ne.symm ha, hc], hcs, rfl⟩

theorem splitOn_names {c : List α} {cs : List (List α)} (hc : sep ∉ c) (hcs : ∀ d ∈ cs, sep ∉ d) :
    (c ++ spread sep cs).splitOn sep = c :: cs := by
  have hnot : ∀ {d : List α}, sep ∉ d → ∀ x ∈ d, (x == sep) = false := by
    intro d hd x hx
    rw [beq_eq_false_iff_ne]
    rintro rfl
    exact hd hx
  rw [List.splitOn_eq_splitOnP]
  induction cs generalizing c with
  | nil =>
    rw [spread_nil, List.append_nil]
    exact List.splitOnP_eq_singleton (hnot hc)
  | cons d cs ih =>
    rw [spread_cons, List.splitOnP_append_cons_of_forall_mem (hnot hc) sep (beq_self_eq_true sep),
      ih (hcs d List.mem_cons_self) fun x hx => hcs x (List.mem_cons_of_mem d hx)]

section Runs

/-- The longest pieces without a separator, but for empty ones. -/
def runs (sep : α) (s : List α) : List (List α) := (s.splitOn sep).filter fun c => c ≠ []

/-- A text begins with separators, and then comes something else or nothing. -/
theorem exists_separators (sep : α) (s : List α) : ∃ n t, s = List.replicate n sep ++ t ∧ t.head? ≠ some sep := by
  induction s with
  | nil => exact ⟨0, [], rfl, by simp⟩
  | cons a s ih =>
    by_cases ha : a = sep
    · obtain ⟨n, t, rfl, ht⟩ := ih
      exact ⟨n + 1, t, by rw [ha, List.replicate_succ, List.cons_append], ht⟩
    · exact ⟨0, a :: s, rfl, by simpa using ha⟩

/-- A text begins with a name, and then a separator comes or nothing. -/
theorem exists_name (sep : α) (s : List α) : ∃ c t, s = c ++ t ∧ sep ∉ c ∧ (t = [] ∨ ∃ r, t = sep :: r) := by
  obtain ⟨c, cs, hc, -, rfl⟩ := exists_names sep s
  refine ⟨c, spread sep cs, rfl, hc, ?_⟩
  cases cs with
  | nil => exact .inl rfl
  | cons d cs => exact .inr ⟨_, rfl⟩

@[simp] theorem runs_nil : runs sep [] = [] := by simp [runs]

theorem runs_append_cons {c : List α} (hc : sep ∉ c) (s : List α) :
    runs sep (c ++ sep :: s) = (if c = [] then [] else [c]) ++ runs sep s := by
  obtain ⟨d, ds, hd, hds, rfl⟩ := exists_names sep s
  have hall : ∀ x ∈ d :: ds, sep ∉ x := List.forall_mem_cons.mpr ⟨hd, hds⟩
  rw [← spread_cons sep d ds, runs, splitOn_names hc hall, runs, splitOn_names hd hds, List.filter_cons]
  by_cases hnil : c = []
  · simp [hnil]
  · simp [hnil]

theorem runs_replicate_append (n : ℕ) (s : List α) : runs sep (List.replicate n sep ++ s) = runs sep s := by
  induction n with
  | zero => rfl
  | succ n ih =>
    rw [List.replicate_succ, List.cons_append]
    exact (runs_append_cons List.not_mem_nil _).trans ih

theorem runs_name {c : List α} (hc : sep ∉ c) (hne : c ≠ []) : runs sep c = [c] := by
  have hsplit : (c ++ spread sep []).splitOn sep = [c] := splitOn_names hc (by simp)
  rw [spread_nil, List.append_nil] at hsplit
  rw [runs, hsplit, List.filter_cons_of_pos (by simpa using hne), List.filter_nil]

/-- Runs are made of what the text is made of. -/
theorem mem_of_mem_runs {s c : List α} {a : α} (hc : c ∈ runs sep s) (ha : a ∈ c) : a ∈ s := by
  obtain ⟨d, ds, hd, hds, rfl⟩ := exists_names sep s
  rw [runs, splitOn_names hd hds] at hc
  rw [List.mem_append]
  rcases List.mem_cons.mp (List.mem_of_mem_filter hc) with rfl | hmem
  · exact .inl ha
  · exact .inr (List.mem_flatMap.mpr ⟨c, hmem, List.mem_cons_of_mem _ ha⟩)

end Runs

section Normal
variable (skip : List α → Bool) (up : List α)

/-- One name more: it is skipped, takes away the name before it, or is added. -/
def push (names : List (List α)) (c : List α) : List (List α) :=
  if skip c then names else if c = up then names.dropLast else names ++ [c]

/-- What is left of a list of names. -/
def normal (names : List (List α)) : List (List α) := names.foldl (push skip up) []

variable {skip up}

theorem foldl_push_filter (start names : List (List α)) :
    (names.filter fun c => !skip c).foldl (push skip up) start = names.foldl (push skip up) start := by
  induction names generalizing start with
  | nil => rfl
  | cons c names ih =>
    rw [List.filter_cons, List.foldl_cons]
    by_cases hskip : skip c = true
    · rw [if_neg (by simp [hskip]), ih, push, if_pos hskip]
    · rw [if_pos (by simpa using hskip), List.foldl_cons, ih]

/-- A name that is kept. -/
theorem mem_foldl_push {start names : List (List α)} {c : List α} (h : c ∈ names.foldl (push skip up) start) :
    c ∈ start ∨ (c ∈ names ∧ skip c = false ∧ c ≠ up) := by
  induction names generalizing start with
  | nil => exact .inl h
  | cons d names ih =>
    rw [List.foldl_cons] at h
    rcases ih h with hstart | ⟨hmem, hkept⟩
    · unfold push at hstart
      split_ifs at hstart with hskip hup
      · exact .inl hstart
      · exact .inl (List.mem_of_mem_dropLast hstart)
      · rcases List.mem_append.mp hstart with hold | hnew
        · exact .inl hold
        · rw [List.mem_singleton.mp hnew]
          exact .inr ⟨List.mem_cons_self, by simpa using hskip, hup⟩
    · exact .inr ⟨List.mem_cons_of_mem d hmem, hkept⟩

/-- Names that are all kept are their own normal form. -/
theorem foldl_push_kept {start names : List (List α)} (h : ∀ c ∈ names, skip c = false ∧ c ≠ up) :
    names.foldl (push skip up) start = start ++ names := by
  induction names generalizing start with
  | nil => exact (List.append_nil start).symm
  | cons c names ih =>
    obtain ⟨hskip, hup⟩ := h c List.mem_cons_self
    rw [List.foldl_cons, push, if_neg (by simp [hskip]), if_neg hup,
      ih fun d hd => h d (List.mem_cons_of_mem c hd), List.append_assoc]
    rfl

end Normal

end DualFuse.Library.PathText
