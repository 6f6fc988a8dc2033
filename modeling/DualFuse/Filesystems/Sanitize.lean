import DualFuse.Filesystems.Paths
import DualFuse.Library.PathText

/-! `fsSanitize` is lexical normalisation. The first pass drops empty components and `.`,
on the name alone and again on the name behind the working directory; the second goes
through the components and takes out each `..` with the component before it. -/

namespace DualFuse.Filesystems.VfsPath

open Library PathText

def dotdot : PathName := [dot, dot]

/-- Empty components and `.` stand for nothing. -/
def dropped (c : PathName) : Bool := decide (c = [] ∨ c = [dot])

/-- A path with these components. -/
def render (names : List PathName) : PathName := if names = [] then root else spread slash names

/-- The components between slashes, without empty ones and `.`; `..` removes the one before
it, and nothing at the root. -/
def lexical (path : PathName) : PathName := render (normal dropped dotdot (path.splitOn slash))

/-- The path that a name stands for. -/
def absolutePath (cwd filename : PathName) : PathName :=
  if filename.head? = some slash then filename else cwd ++ slash :: filename

/-- The path starts with a slash and is the root, or has no component that is empty, `.` or
`..`; so only the root ends with a slash. -/
def Canonical (path : PathName) : Prop :=
  path.head? = some slash ∧
    (path = root ∨ ∀ c ∈ (path.splitOn slash).tail, c ≠ [] ∧ c ≠ [dot] ∧ c ≠ dotdot)

/-- A component that stays. -/
def Kept (c : PathName) : Prop := slash ∉ c ∧ dropped c = false ∧ c ≠ dotdot

theorem dropped_eq_false_iff {c : PathName} : dropped c = false ↔ c ≠ [] ∧ c ≠ [dot] := by
  rw [dropped, decide_eq_false_iff_not, not_or]

theorem Kept.ne_nil {c : PathName} (h : Kept c) : c ≠ [] := (dropped_eq_false_iff.mp h.2.1).1

/-- A text that begins with a slash is all components. -/
theorem exists_spread {s : PathName} (h : s.head? = some slash) :
    ∃ cs, cs ≠ [] ∧ (∀ c ∈ cs, slash ∉ c) ∧ s = spread slash cs := by
  obtain ⟨c, cs, hc, hcs, rfl⟩ := exists_names slash s
  cases c with
  | nil =>
    refine ⟨cs, ?_, hcs, rfl⟩
    rintro rfl
    cases h
  | cons a c =>
    obtain rfl : a = slash := Option.some.inj h
    exact absurd List.mem_cons_self hc

theorem splitOn_spread {cs : List PathName} (h : ∀ c ∈ cs, slash ∉ c) :
    (spread slash cs).splitOn slash = [] :: cs :=
  splitOn_names (c := []) List.not_mem_nil h

theorem canonical_iff {path : PathName} : Canonical path ↔ ∃ names, (∀ c ∈ names, Kept c) ∧ path = render names := by
  constructor
  · rintro ⟨hhead, rfl | hnames⟩
    · exact ⟨[], by simp, rfl⟩
    · obtain ⟨cs, hne, hcs, rfl⟩ := exists_spread hhead
      rw [splitOn_spread hcs] at hnames
      refine ⟨cs, fun c hc => ?_, by rw [render, if_neg hne]⟩
      obtain ⟨hempty, hdot, hup⟩ := hnames c hc
      exact ⟨hcs c hc, dropped_eq_false_iff.mpr ⟨hempty, hdot⟩, hup⟩
  · rintro ⟨names, hkept, rfl⟩
    cases names with
    | nil => exact ⟨rfl, .inl rfl⟩
    | cons a names =>
      rw [render, if_neg (List.cons_ne_nil a names)]
      refine ⟨rfl, .inr ?_⟩
      rw [splitOn_spread fun c hc => (hkept c hc).1]
      intro c hc
      obtain ⟨hempty, hdot⟩ := dropped_eq_false_iff.mp (hkept c hc).2.1
      exact ⟨hempty, hdot, (hkept c hc).2.2⟩

/-! ### The first pass -/

/-- A component is copied up to the next slash. -/
theorem sanitizeCopy_append {c rest : PathName} (hc : slash ∉ c) : sanitizeCopy (c ++ rest) = c ++ sanitizeCopy rest := by
  induction c with
  | nil => rfl
  | cons x c ih =>
    rw [List.mem_cons, not_or] at hc
    have hx : x ≠ slash := fun heq => hc.1 heq.symm
    rw [List.cons_append, List.cons_append, ← ih hc.2]
    cases c ++ rest with
    | nil => simp [sanitizeCopy, hx]
    | cons d r => rw [sanitizeCopy, if_neg fun h => hx h.1, if_neg fun h => hx h.1]

theorem sanitizeCopy_spread {cs : List PathName} (h : ∀ c ∈ cs, slash ∉ c) :
    sanitizeCopy (spread slash cs) = spread slash (cs.filter fun c => !dropped c) := by
  induction cs with
  | nil => rfl
  | cons c cs ih =>
    have ih := ih fun d hd => h d (List.mem_cons_of_mem c hd)
    have hc := h c List.mem_cons_self
    rw [spread_cons, List.filter_cons]
    match c with
    | [] =>
      rw [if_neg (by decide), ← ih, List.nil_append]
      cases cs with
      | nil => rfl
      | cons d cs => rw [spread_cons, sanitizeCopy, if_pos ⟨rfl, rfl⟩]
    | [a] =>
      have ha : a ≠ slash := fun heq => hc (by rw [heq]; exact List.mem_singleton_self _)
      by_cases hdot : a = dot
      · subst hdot
        have hnext : (spread slash cs).head? = some slash ∨ spread slash cs = [] := (head_spread cs).symm
        rw [if_neg (by decide), ← ih, List.singleton_append, sanitizeCopy, if_neg fun hd => ha hd.2,
          if_pos ⟨rfl, rfl, hnext⟩]
      · have hkept : dropped [a] = false := dropped_eq_false_iff.mpr ⟨by simp, by simpa using hdot⟩
        rw [if_pos (by simp [hkept]), spread_cons, ← ih, ← sanitizeCopy_append hc, List.singleton_append, sanitizeCopy,
          if_neg fun hd => ha hd.2, if_neg fun hd => hdot hd.2.1]
    | a :: b :: c =>
      have ha : a ≠ slash := fun heq => hc (by rw [heq]; exact List.mem_cons_self)
      have hb : b ≠ slash := fun heq => hc (by rw [heq]; exact List.mem_cons_of_mem _ List.mem_cons_self)
      have hkept : dropped (a :: b :: c) = false := dropped_eq_false_iff.mpr ⟨by simp, by simp⟩
      rw [if_pos (by simp [hkept]), spread_cons, ← ih, ← sanitizeCopy_append hc, List.cons_append, sanitizeCopy,
        if_neg fun hd => ha hd.2, if_neg]
      rintro ⟨-, -, hnext | hnext⟩
      · exact hb (Option.some.inj hnext)
      · cases hnext

/-- The pass over components, with the root for no component. -/
theorem fsSanitizeCopySafe_spread {cs : List PathName} (h : ∀ c ∈ cs, slash ∉ c) :
    fsSanitizeCopySafe (spread slash cs) = render (cs.filter fun c => !dropped c) := by
  unfold fsSanitizeCopySafe render
  rw [sanitizeCopy_spread h]
  exact if_congr spread_eq_nil_iff rfl rfl

/-! ### The second pass -/

/-- Places at which no `/..` stands are passed by. -/
theorem removeDotDot_skip {s : PathName} {i m n : ℕ} (h : ∀ j, i ≤ j → j < i + m → j < s.length ∧ ¬isDotDot s j) :
    removeDotDot (n + m) s i = removeDotDot n s (i + m) := by
  induction m generalizing i with
  | zero => rfl
  | succ m ih =>
    obtain ⟨hlt, hnot⟩ := h i le_rfl (by omega)
    rw [← Nat.add_assoc, removeDotDot, if_pos hlt, if_neg hnot, ih fun j hj hj' => h j (by omega) (by omega)]
    congr 1
    omega

theorem getElem?_append_add (l r : PathName) (k : ℕ) : (l ++ r)[l.length + k]? = r[k]? := by
  rw [List.getElem?_append_right (Nat.le_add_right _ _), Nat.add_sub_cancel_left]

/-- The slash before a component. -/
theorem indexToCopyInto_name {l d r : PathName} (hd : slash ∉ d) {k : ℕ} (hk : k ≤ d.length) :
    indexToCopyInto (l ++ slash :: (d ++ r)) (l.length + 1 + k) = l.length := by
  induction k with
  | zero =>
    have hslash := getElem?_append_add l (slash :: (d ++ r)) 0
    rw [Nat.add_zero] at hslash
    rw [Nat.add_zero, indexToCopyInto, if_pos (by rw [hslash]; rfl)]
  | succ k ih =>
    have hchar : (l ++ slash :: (d ++ r))[l.length + 1 + k]? = d[k]? := by
      rw [Nat.add_assoc, getElem?_append_add, Nat.add_comm, List.getElem?_cons_succ, List.getElem?_append_left (by omega)]
    rw [← Nat.add_assoc, indexToCopyInto, hchar, if_neg, ih (by omega)]
    intro heq
    exact hd (List.mem_of_getElem? heq)

/-- `/..` stands where a component that is `..` begins, and nowhere else. -/
theorem isDotDot_name_iff {l c : PathName} {cs : List PathName} (hc : slash ∉ c) (hkept : dropped c = false) :
    isDotDot (l ++ slash :: (c ++ spread slash cs)) l.length ↔ c = dotdot := by
  have hat := getElem?_append_add l (slash :: (c ++ spread slash cs))
  have h0 := hat 0
  rw [Nat.add_zero] at h0
  unfold isDotDot
  rw [h0, hat 1, hat 2, hat 3]
  simp only [List.getElem?_cons_zero, List.getElem?_cons_succ, true_and]
  obtain ⟨hne, hdot⟩ := dropped_eq_false_iff.mp hkept
  have hnext : ∀ x, (spread slash cs)[0]? = some x → x = slash := by
    intro x hx
    cases cs with
    | nil => cases hx
    | cons d cs => exact (Option.some.inj hx).symm
  match c with
  | [] => exact absurd rfl hne
  | [a] =>
    refine iff_of_false ?_ (by simp [dotdot])
    rintro ⟨-, hslash, -⟩
    exact absurd (hnext dot hslash) (by decide)
  | [a, b] =>
    simp only [dotdot, List.cons_append, List.nil_append, List.getElem?_cons_zero, List.getElem?_cons_succ,
      Option.some.injEq, List.cons.injEq, and_true]
    constructor
    · rintro ⟨ha, hb, -⟩
      exact ⟨ha, hb⟩
    · rintro ⟨ha, hb⟩
      refine ⟨ha, hb, ?_⟩
      cases cs with
      | nil => exact .inr rfl
      | cons d cs => exact .inl rfl
  | a :: b :: d :: c =>
    refine iff_of_false ?_ (by simp [dotdot])
    rintro ⟨-, -, hslash | hnone⟩
    · refine hc ?_
      rw [← Option.some.inj hslash]
      simp
    · cases hnone

/-- The pass over components, `done` of which are already looked at. -/
theorem removeDotDot_names {n : ℕ} {done todo : List PathName} (hn : (spread slash todo).length ≤ n)
    (hdone : ∀ c ∈ done, slash ∉ c) (htodo : ∀ c ∈ todo, slash ∉ c ∧ dropped c = false) :
    removeDotDot n (spread slash (done ++ todo)) (spread slash done).length =
      spread slash (todo.foldl (push dropped dotdot) done) := by
  induction todo generalizing n done with
  | nil =>
    rw [List.append_nil, List.foldl_nil]
    cases n with
    | zero => rfl
    | succ n => rw [removeDotDot, if_neg (lt_irrefl _)]
  | cons c todo ih =>
    obtain ⟨hc, hkept⟩ := htodo c List.mem_cons_self
    have htodo := fun d hd => htodo d (List.mem_cons_of_mem c hd)
    have hisDotDot : isDotDot (spread slash done ++ slash :: (c ++ spread slash todo)) (spread slash done).length ↔
        c = dotdot := isDotDot_name_iff hc hkept
    rw [spread_cons, List.length_cons, List.length_append] at hn
    rw [List.foldl_cons, push, if_neg (by simp [hkept]), spread_append, spread_cons]
    by_cases hup : c = dotdot
    · -- the component before `..` goes with it
      rw [if_pos hup]
      obtain ⟨m, rfl⟩ : ∃ m, n = m + 1 := ⟨n - 1, by omega⟩
      rw [removeDotDot, if_pos (by simp), if_pos (hisDotDot.mpr hup)]
      have hdrop : (spread slash done ++ slash :: (c ++ spread slash todo)).drop ((spread slash done).length + 3) =
          spread slash todo := by
        rw [List.drop_append, hup]
        simp [dotdot]
      rw [hdrop]
      rcases List.eq_nil_or_concat done with rfl | ⟨before, d, rfl⟩
      · have hzero : indexToCopyInto (spread slash [] ++ slash :: (c ++ spread slash todo))
            (spread slash ([] : List PathName)).length = 0 := rfl
        rw [hzero]
        exact ih (by rw [hup] at hn; simp only [dotdot, List.length_cons] at hn; omega) hdone htodo
      · rw [List.concat_eq_append] at hdone ⊢
        have hd : slash ∉ d := hdone d (by simp)
        have hsplit : spread slash (before ++ [d]) ++ slash :: (c ++ spread slash todo) =
            spread slash before ++ slash :: (d ++ slash :: (c ++ spread slash todo)) := by simp
        have hindex : indexToCopyInto (spread slash (before ++ [d]) ++ slash :: (c ++ spread slash todo))
            (spread slash (before ++ [d])).length = (spread slash before).length := by
          rw [hsplit, ← indexToCopyInto_name (l := spread slash before) (r := slash :: (c ++ spread slash todo)) hd
            (le_refl d.length)]
          congr 1
          simp only [spread_append, spread_cons, spread_nil, List.append_nil, List.length_append, List.length_cons]
          omega
        have htake : (spread slash (before ++ [d]) ++ slash :: (c ++ spread slash todo)).take
            (spread slash before).length = spread slash before := by
          rw [hsplit, List.take_left]
        rw [hindex, htake, List.dropLast_concat, ← spread_append]
        exact ih (by rw [hup] at hn; simp only [dotdot, List.length_cons] at hn; omega)
          (fun x hx => hdone x (List.mem_append_left _ hx)) htodo
    · -- a component that stays is passed by
      rw [if_neg hup]
      have hlength : (spread slash (done ++ [c])).length = (spread slash done).length + (c.length + 1) := by
        simp
      obtain ⟨m, rfl⟩ : ∃ m, n = m + (c.length + 1) := ⟨n - (c.length + 1), by omega⟩
      rw [removeDotDot_skip, ← hlength]
      · have hdone' : ∀ x ∈ done ++ [c], slash ∉ x := by
          intro x hx
          rcases List.mem_append.mp hx with hold | hnew
          · exact hdone x hold
          · rw [List.mem_singleton.mp hnew]
            exact hc
        rw [← ih (n := m) (by omega) hdone' htodo]
        simp
      · intro j hj hj'
        refine ⟨by simp; omega, ?_⟩
        rcases hj.eq_or_lt with rfl | hlt
        · rwa [hisDotDot]
        · rintro ⟨hslash, -⟩
          obtain ⟨k, rfl⟩ : ∃ k, j = (spread slash done).length + (k + 1) := ⟨j - (spread slash done).length - 1, by omega⟩
          rw [getElem?_append_add, List.getElem?_cons_succ, List.getElem?_append_left (by omega)] at hslash
          exact hc (List.mem_of_getElem? hslash)

/-! ### Both passes -/

/-- What the second pass makes of the components that the first has left. -/
theorem fsSanitize_of_joined {cwd filename : PathName} {names : List PathName}
    (hnames : ∀ c ∈ names, slash ∉ c ∧ dropped c = false) (h : joined cwd filename = render names) :
    fsSanitize cwd filename = render (normal dropped dotdot names) := by
  rw [fsSanitize, h]
  cases names with
  | nil => rfl
  | cons a names =>
    have hne : render (a :: names) = spread slash (a :: names) := if_neg (List.cons_ne_nil a names)
    have hpass : removeDotDot (spread slash (a :: names)).length (spread slash (a :: names)) 0 =
        spread slash ((a :: names).foldl (push dropped dotdot) []) :=
      removeDotDot_names le_rfl (List.forall_mem_nil _) hnames
    rw [hne, hpass]
    unfold render normal
    exact if_congr spread_eq_nil_iff rfl rfl

theorem kept_filter {cs : List PathName} (h : ∀ c ∈ cs, slash ∉ c) :
    ∀ c ∈ cs.filter fun c => !dropped c, slash ∉ c ∧ dropped c = false := by
  intro c hc
  obtain ⟨hmem, hkept⟩ := List.mem_filter.mp hc
  exact ⟨h c hmem, by simpa using hkept⟩

theorem normal_nil_cons (names : List PathName) : normal dropped dotdot ([] :: names) = normal dropped dotdot names := rfl

/-- An absolute name, whatever the working directory is. -/
theorem fsSanitize_absolute {filename : PathName} (h : filename.head? = some slash) (cwd : PathName) :
    fsSanitize cwd filename = lexical filename := by
  obtain ⟨cs, -, hcs, rfl⟩ := exists_spread h
  rw [lexical, splitOn_spread hcs, normal_nil_cons, normal, ← foldl_push_filter]
  refine fsSanitize_of_joined (kept_filter hcs) ?_
  rw [joined, if_pos h, fsSanitizeCopySafe_spread hcs]

/-- A canonical working directory and a slash. -/
theorem cwd_slash {names : List PathName} (h : ∀ c ∈ names, Kept c) :
    render names ++ List.replicate (if (render names).head? = some slash ∧ 1 < (render names).length then 1 else 0) slash =
      spread slash names ++ [slash] := by
  cases names with
  | nil => rfl
  | cons a names =>
    have hpos := List.length_pos_iff.mpr (h a List.mem_cons_self).ne_nil
    rw [render, if_neg (List.cons_ne_nil a names), if_pos]
    · rfl
    · refine ⟨rfl, ?_⟩
      rw [spread_cons, List.length_cons, List.length_append]
      omega

/-- The first pass over a relative name: the components of the directory and those of the name. -/
theorem joined_relative {names cs : List PathName} {c : PathName} (hnames : ∀ c ∈ names, Kept c)
    (hcs : ∀ d ∈ c :: cs, slash ∉ d) (h : (c ++ spread slash cs).head? ≠ some slash) :
    joined (render names) (c ++ spread slash cs) = render (names ++ (c :: cs).filter fun c => !dropped c) := by
  have hname : fsSanitizeCopySafe (c ++ spread slash cs) =
      if c = [] then root else c ++ spread slash (cs.filter fun c => !dropped c) := by
    unfold fsSanitizeCopySafe
    rw [sanitizeCopy_append (hcs c List.mem_cons_self),
      sanitizeCopy_spread fun d hd => hcs d (List.mem_cons_of_mem c hd)]
    cases c with
    | nil =>
      obtain rfl : cs = [] := by
        cases cs with
        | nil => rfl
        | cons d cs => exact absurd rfl h
      rfl
    | cons a c => rfl
  have htotal : fsSanitizeCopySafe (render names ++
      List.replicate (if (render names).head? = some slash ∧ 1 < (render names).length then 1 else 0) slash ++
      fsSanitizeCopySafe (c ++ spread slash cs)) = render (names ++ (c :: cs).filter fun c => !dropped c) := by
    have hkept : names.filter (fun c => !dropped c) = names :=
      List.filter_eq_self.mpr fun d hd => by simp [(hnames d hd).2.1]
    rw [cwd_slash hnames, hname]
    by_cases hempty : c = []
    · subst hempty
      obtain rfl : cs = [] := by
        cases cs with
        | nil => rfl
        | cons d cs => exact absurd rfl h
      have hsplit : spread slash names ++ [slash] ++ root = spread slash (names ++ [[], []]) := by simp [root]
      rw [if_pos rfl, hsplit, fsSanitizeCopySafe_spread, List.filter_append, hkept]
      · rfl
      · intro d hd
        rcases List.mem_append.mp hd with hold | hnew
        · exact (hnames d hold).1
        · simp only [List.mem_cons, List.not_mem_nil, or_false, or_self] at hnew
          simp [hnew]
    · have hsplit : spread slash names ++ [slash] ++ (c ++ spread slash (cs.filter fun c => !dropped c)) =
          spread slash (names ++ c :: cs.filter fun c => !dropped c) := by simp
      have hfilter : (c :: cs.filter fun c => !dropped c).filter (fun c => !dropped c) =
          (c :: cs).filter fun c => !dropped c := by
        rw [List.filter_cons, List.filter_cons, List.filter_filter]
        simp
      rw [if_neg hempty, hsplit, fsSanitizeCopySafe_spread, List.filter_append, hkept, hfilter]
      intro d hd
      rcases List.mem_append.mp hd with hold | hnew
      · exact (hnames d hold).1
      · rcases List.mem_cons.mp hnew with rfl | hrest
        · exact hcs d List.mem_cons_self
        · exact hcs d (List.mem_cons_of_mem c (List.mem_of_mem_filter hrest))
  have hlength : (render (names ++ (c :: cs).filter fun c => !dropped c)).length ≤
      (render names).length + (if (render names).head? = some slash ∧ 1 < (render names).length then 1 else 0) +
        (c ++ spread slash cs).length := by
    have hcwd := congrArg List.length (cwd_slash hnames)
    have hfilter : (spread slash ((c :: cs).filter fun c => !dropped c)).length ≤ (spread slash (c :: cs)).length :=
      length_spread_filter_le _ _
    rw [List.length_append, List.length_replicate, List.length_append, List.length_singleton] at hcwd
    rw [hcwd]
    unfold render
    split_ifs with hnone
    · simp only [root, List.length_singleton]
      omega
    · rw [spread_append, List.length_append]
      refine (Nat.add_le_add_left hfilter _).trans ?_
      rw [spread_cons, List.length_cons]
      omega
  rw [joined, if_neg h]
  dsimp only
  rw [htotal, List.take_of_length_le hlength]

theorem fsSanitize_relative {names : List PathName} {filename : PathName} (hnames : ∀ c ∈ names, Kept c)
    (h : filename.head? ≠ some slash) : fsSanitize (render names) filename = lexical (render names ++ slash :: filename) := by
  obtain ⟨c, cs, hc, hcs, rfl⟩ := exists_names slash filename
  have hall : ∀ d ∈ c :: cs, slash ∉ d := List.forall_mem_cons.mpr ⟨hc, hcs⟩
  have hnormal : normal dropped dotdot (names ++ (c :: cs).filter fun c => !dropped c) =
      normal dropped dotdot (names ++ c :: cs) := by
    unfold normal
    rw [List.foldl_append, List.foldl_append, foldl_push_filter]
  have hsplit : normal dropped dotdot ((render names ++ slash :: (c ++ spread slash cs)).splitOn slash) =
      normal dropped dotdot (names ++ c :: cs) := by
    cases names with
    | nil =>
      have htext : render [] ++ slash :: (c ++ spread slash cs) = spread slash ([] :: c :: cs) := rfl
      rw [htext, splitOn_spread]
      · rfl
      · exact List.forall_mem_cons.mpr ⟨List.not_mem_nil, hall⟩
    | cons a names =>
      have htext : render (a :: names) ++ slash :: (c ++ spread slash cs) = spread slash (a :: names ++ c :: cs) := by
        rw [render, if_neg (List.cons_ne_nil a names), spread_append, spread_cons slash c]
      rw [htext, splitOn_spread, normal_nil_cons]
      intro d hd
      rcases List.mem_append.mp hd with hold | hnew
      · exact (hnames d hold).1
      · exact hall d hnew
  rw [lexical, hsplit, ← hnormal]
  refine fsSanitize_of_joined (fun d hd => ?_) (joined_relative hnames hall h)
  rcases List.mem_append.mp hd with hold | hnew
  · exact ⟨(hnames d hold).1, (hnames d hold).2.1⟩
  · exact kept_filter hall d hnew

/-- Normalising leaves components that stay. -/
theorem kept_normal (path : PathName) : ∀ c ∈ normal dropped dotdot (path.splitOn slash), Kept c := by
  obtain ⟨c, cs, hc, hcs, rfl⟩ := exists_names slash path
  have hall : ∀ d ∈ c :: cs, slash ∉ d := List.forall_mem_cons.mpr ⟨hc, hcs⟩
  intro d hd
  rw [splitOn_names hc hcs] at hd
  rcases mem_foldl_push hd with hnone | ⟨hmem, hkept, hup⟩
  · exact absurd hnone List.not_mem_nil
  · exact ⟨hall d hmem, hkept, hup⟩

/-- A normalised path is canonical. -/
theorem canonical_lexical (path : PathName) : Canonical (lexical path) :=
  canonical_iff.mpr ⟨_, kept_normal path, rfl⟩

/-- A canonical path is normalised. -/
theorem lexical_of_canonical {path : PathName} (h : Canonical path) : lexical path = path := by
  obtain ⟨names, hkept, rfl⟩ := canonical_iff.mp h
  cases names with
  | nil => rfl
  | cons a names =>
    have hne : render (a :: names) = spread slash (a :: names) := if_neg (List.cons_ne_nil a names)
    have hnormal : normal dropped dotdot (a :: names) = a :: names :=
      foldl_push_kept fun c hc => (hkept c hc).2
    rw [hne, lexical, splitOn_spread fun c hc => (hkept c hc).1, normal_nil_cons, hnormal, hne]

/-- Sanitising is lexical normalisation; its result is canonical, and sanitising it again
changes nothing. -/
theorem fsSanitize_lexical (cwd filename : PathName) (hcwd : Canonical cwd) :
    fsSanitize cwd filename = lexical (absolutePath cwd filename) ∧ Canonical (fsSanitize cwd filename) ∧
      ∀ cwd', fsSanitize cwd' (fsSanitize cwd filename) = fsSanitize cwd filename := by
  have hlexical : fsSanitize cwd filename = lexical (absolutePath cwd filename) := by
    unfold absolutePath
    split_ifs with habsolute
    · exact fsSanitize_absolute habsolute cwd
    · obtain ⟨names, hkept, rfl⟩ := canonical_iff.mp hcwd
      exact fsSanitize_relative hkept habsolute
  have hcanonical : Canonical (fsSanitize cwd filename) := hlexical ▸ canonical_lexical _
  refine ⟨hlexical, hcanonical, fun cwd' => ?_⟩
  rw [fsSanitize_absolute hcanonical.1, lexical_of_canonical hcanonical]

/-- `../b/./c//` in `/a/x` is `/a/b/c`. -/
theorem fsSanitize_sample : fsSanitize [47, 97, 47, 120] [46, 46, 47, 98, 47, 46, 47, 99, 47, 47] =
      lexical [47, 97, 47, 120, 47, 46, 46, 47, 98, 47, 46, 47, 99, 47, 47] ∧
    lexical [47, 97, 47, 120, 47, 46, 46, 47, 98, 47, 46, 47, 99, 47, 47] = [47, 97, 47, 98, 47, 99] := by
  refine ⟨(fsSanitize_lexical [47, 97, 47, 120] [46, 46, 47, 98, 47, 46, 47, 99, 47, 47] ?_).1, by decide +kernel⟩
  exact ⟨rfl, .inr (by decide +kernel)⟩

end DualFuse.Filesystems.VfsPath
