import DualFuse.Library.Loop

/-! Going over the items of a list with a state, until an item stops it. A scan of two lists
in a row is the scan of the second from where the first one ended. -/

namespace DualFuse.Library.Loop

variable {ε σ ρ : Type} {visit : ε → σ → Exec (Round σ ρ)} {e : ε} {l l' : List ε} {s t u : σ} {r : ρ}

def scan (visit : ε → σ → Exec (Round σ ρ)) : List ε → σ → Exec (Round σ ρ)
  | [], s => .ok (.next s)
  | e :: l, s => do
    match ← visit e s with
    | .done r => .ok (.done r)
    | .next s => scan visit l s

@[simp] theorem scan_nil (visit : ε → σ → Exec (Round σ ρ)) (s : σ) : scan visit [] s = .ok (.next s) := rfl

theorem scan_cons_next (h : visit e s = .ok (.next t)) (l : List ε) : scan visit (e :: l) s = scan visit l t := by
  simp [scan, h]

theorem scan_cons_done (h : visit e s = .ok (.done r)) (l : List ε) : scan visit (e :: l) s = .ok (.done r) := by
  simp [scan, h]

theorem scan_cons_error {x : Stop} (h : visit e s = .error x) (l : List ε) : scan visit (e :: l) s = .error x := by
  simp [scan, h]

theorem scan_single (visit : ε → σ → Exec (Round σ ρ)) (e : ε) (s : σ) : scan visit [e] s = visit e s := by
  cases hvisit : visit e s with
  | error x => exact scan_cons_error hvisit []
  | ok a =>
    cases a with
    | done r => exact scan_cons_done hvisit []
    | next t => exact scan_cons_next hvisit []

/-- A scan that goes on does so at the first item. -/
theorem scan_cons_eq_next (h : scan visit (e :: l) s = .ok (.next u)) :
    ∃ t, visit e s = .ok (.next t) ∧ scan visit l t = .ok (.next u) := by
  cases hvisit : visit e s with
  | error x =>
    rw [scan_cons_error hvisit] at h
    cases h
  | ok a =>
    cases a with
    | done r =>
      rw [scan_cons_done hvisit] at h
      cases h
    | next t =>
      rw [scan_cons_next hvisit] at h
      exact ⟨t, rfl, h⟩

theorem scan_append_next (h : scan visit l s = .ok (.next t)) (l' : List ε) :
    scan visit (l ++ l') s = scan visit l' t := by
  induction l generalizing s with
  | nil =>
    cases h
    rfl
  | cons e l ih =>
    obtain ⟨s', hvisit, hscan⟩ := scan_cons_eq_next h
    rw [List.cons_append, scan_cons_next hvisit]
    exact ih hscan

theorem scan_append_done (h : scan visit l s = .ok (.done r)) (l' : List ε) :
    scan visit (l ++ l') s = .ok (.done r) := by
  induction l generalizing s with
  | nil => cases h
  | cons e l ih =>
    rw [List.cons_append]
    cases hvisit : visit e s with
    | error x =>
      rw [scan_cons_error hvisit] at h
      cases h
    | ok a =>
      cases a with
      | done r' =>
        rw [scan_cons_done hvisit] at h ⊢
        exact h
      | next s' =>
        rw [scan_cons_next hvisit] at h ⊢
        exact ih h

theorem scan_append_error {x : Stop} (h : scan visit l s = .error x) (l' : List ε) :
    scan visit (l ++ l') s = .error x := by
  induction l generalizing s with
  | nil => cases h
  | cons e l ih =>
    rw [List.cons_append]
    cases hvisit : visit e s with
    | error y =>
      rw [scan_cons_error hvisit] at h ⊢
      exact h
    | ok a =>
      cases a with
      | done r =>
        rw [scan_cons_done hvisit] at h
        cases h
      | next t =>
        rw [scan_cons_next hvisit] at h ⊢
        exact ih h

/-- The item at which a scan stops or fails, and the state it is met in. -/
theorem scan_stops (h : ∀ t, scan visit l s ≠ .ok (.next t)) :
    ∃ before e after t, l = before ++ e :: after ∧ scan visit before s = .ok (.next t) ∧
      ∀ u, visit e t ≠ .ok (.next u) := by
  induction l generalizing s with
  | nil => exact absurd rfl (h s)
  | cons e l ih =>
    by_cases hnext : ∃ u, visit e s = .ok (.next u)
    · obtain ⟨u, hu⟩ := hnext
      rw [scan_cons_next hu] at h
      obtain ⟨before, e', after, t, rfl, hbefore, hstop⟩ := ih h
      exact ⟨e :: before, e', after, t, rfl, (scan_cons_next hu before).trans hbefore, hstop⟩
    · exact ⟨[], e, l, s, rfl, rfl, fun u hu => hnext ⟨u, hu⟩⟩

/-- A scan fails at an item. -/
theorem scan_error {x : Stop} (h : scan visit l s = .error x) :
    ∃ before e after t, l = before ++ e :: after ∧ scan visit before s = .ok (.next t) ∧ visit e t = .error x := by
  have hstops : ∀ t, scan visit l s ≠ .ok (.next t) := by
    intro t ht
    rw [h] at ht
    cases ht
  obtain ⟨before, e, after, t, rfl, hbefore, hnot⟩ := scan_stops hstops
  refine ⟨before, e, after, t, rfl, hbefore, ?_⟩
  rw [scan_append_next hbefore] at h
  cases hvisit : visit e t with
  | error y =>
    rw [scan_cons_error hvisit] at h
    exact h
  | ok a =>
    cases a with
    | done r =>
      rw [scan_cons_done hvisit] at h
      cases h
    | next u => exact absurd hvisit (hnot u)

/-- A scan has its result at an item. -/
theorem scan_done (h : scan visit l s = .ok (.done r)) :
    ∃ before e after t, l = before ++ e :: after ∧ scan visit before s = .ok (.next t) ∧ visit e t = .ok (.done r) := by
  have hstops : ∀ t, scan visit l s ≠ .ok (.next t) := by
    intro t ht
    rw [h] at ht
    cases ht
  obtain ⟨before, e, after, t, rfl, hbefore, hnot⟩ := scan_stops hstops
  refine ⟨before, e, after, t, rfl, hbefore, ?_⟩
  rw [scan_append_next hbefore] at h
  cases hvisit : visit e t with
  | error x =>
    rw [scan_cons_error hvisit] at h
    cases h
  | ok a =>
    cases a with
    | done r' =>
      rw [scan_cons_done hvisit] at h
      exact h
    | next u => exact absurd hvisit (hnot u)

/-- An invariant that each item keeps. -/
theorem scan_invariant {inv : σ → Prop} (hkeeps : ∀ e s t, inv s → visit e s = .ok (.next t) → inv t)
    (hs : inv s) (h : scan visit l s = .ok (.next t)) : inv t := by
  induction l generalizing s with
  | nil =>
    cases h
    exact hs
  | cons e l ih =>
    obtain ⟨s', hvisit, hscan⟩ := scan_cons_eq_next h
    exact ih (hkeeps e s s' hs hvisit) hscan

theorem scan_append_eq_next (h : scan visit (l ++ l') s = .ok (.next u)) :
    ∃ t, scan visit l s = .ok (.next t) ∧ scan visit l' t = .ok (.next u) := by
  induction l generalizing s with
  | nil => exact ⟨s, rfl, h⟩
  | cons e l ih =>
    obtain ⟨s', hvisit, hscan⟩ := scan_cons_eq_next h
    obtain ⟨t, hl, hl'⟩ := ih hscan
    exact ⟨t, (scan_cons_next hvisit l).trans hl, hl'⟩

section First
variable {visit : ε → σ → Exec (Round σ ε)} {P : List ε → ε → Prop} {q : ε} {before after : List ε}

/-- No item of a list has a property, which may depend on the items before it. -/
def NoneOf (P : List ε → ε → Prop) (l : List ε) : Prop := ∀ before q after, l = before ++ q :: after → ¬P before q

theorem NoneOf.of_append (h : NoneOf P (l ++ l')) : NoneOf P l := by
  rintro before q after rfl
  exact h before q (after ++ l') (by rw [List.append_assoc, List.cons_append])

theorem noneOf_append_singleton {e : ε} (h : NoneOf P l) (he : ¬P l e) : NoneOf P (l ++ [e]) := by
  intro before q after hsplit
  rcases List.eq_nil_or_concat after with rfl | ⟨after, e', rfl⟩
  · obtain ⟨rfl, heq⟩ := List.append_inj' hsplit rfl
    rwa [← (List.cons.inj heq).1]
  · rw [List.concat_eq_append, ← List.cons_append, ← List.append_assoc] at hsplit
    exact h before q after (List.append_inj' hsplit rfl).1

/-- The first item with the property. -/
theorem exists_first (h : ¬NoneOf P l) : ∃ before q after, l = before ++ q :: after ∧ NoneOf P before ∧ P before q := by
  induction l using List.reverseRecOn with
  | nil => exact absurd (fun before q after hsplit => by simp at hsplit) h
  | append_singleton l e ih =>
    by_cases hl : NoneOf P l
    · by_cases he : P l e
      · exact ⟨l, e, [], rfl, hl, he⟩
      · exact absurd (noneOf_append_singleton hl he) h
    · obtain ⟨before, q, after, rfl, hfirst⟩ := ih hl
      exact ⟨before, q, after ++ [e], by simp, hfirst⟩

/-- A scan has the first item with a property as its result, and none if there is none. -/
structure FindsFirst (visit : ε → σ → Exec (Round σ ε)) (P : List ε → ε → Prop) (l : List ε) (s : σ) : Prop where
  first : ∀ before q after, l = before ++ q :: after → NoneOf P before → P before q → scan visit l s = .ok (.done q)
  nothing : NoneOf P l → ∃ t, scan visit l s = .ok (.next t)

/-- The visit of an item decides the property. -/
def Decides (visit : ε → σ → Exec (Round σ ε)) (P : List ε → ε → Prop) (before : List ε) (q : ε) (t : σ) : Prop :=
  (P before q → visit q t = .ok (.done q)) ∧ (¬P before q → ∃ u, visit q t = .ok (.next u))

/-- A scan goes on as long as its visits decide the property and nothing has it. -/
theorem scan_passes (h : ∀ before q after t, l = before ++ q :: after → scan visit before s = .ok (.next t) →
    Decides visit P before q t) (hnone : NoneOf P l) : ∃ t, scan visit l s = .ok (.next t) := by
  induction l using List.reverseRecOn with
  | nil => exact ⟨s, rfl⟩
  | append_singleton l e ih =>
    obtain ⟨t, ht⟩ := ih (fun before q after t hsplit => h before q (after ++ [e]) t (by rw [hsplit]; simp))
      hnone.of_append
    obtain ⟨u, hu⟩ := (h l e [] t rfl ht).2 (hnone l e [] rfl)
    exact ⟨u, by rw [scan_append_next ht, scan_single, hu]⟩

/-- A scan that has an item as its result has gone on up to it. -/
theorem scan_done_self (hself : ∀ q t r, visit q t = .ok (.done r) → r = q) (hnodup : l.Nodup)
    (hsplit : l = before ++ q :: after) (h : scan visit l s = .ok (.done q)) :
    ∃ t, scan visit before s = .ok (.next t) ∧ visit q t = .ok (.done q) := by
  obtain ⟨before', e, after', t, hsplit', hscan, hvisit⟩ := scan_done h
  obtain rfl := hself e t q hvisit
  have heq : before' ++ q :: after' = before ++ q :: after := hsplit'.symm.trans hsplit
  rw [hsplit'] at hnodup
  have hbefore : q ∉ before' := fun hmem => (List.nodup_append.mp hnodup).2.2 q hmem q List.mem_cons_self rfl
  have hafter : q ∉ after' := (List.nodup_cons.mp (List.nodup_append.mp hnodup).2.1).1
  obtain ⟨rfl, -, -⟩ := (List.append_cons_inj_of_notMem hbefore hafter).mp heq
  exact ⟨t, hscan, hvisit⟩

/-- A scan finds the first item with a property exactly if its visits decide the property up to
that item. -/
theorem findsFirst_iff (hself : ∀ q t r, visit q t = .ok (.done r) → r = q) (hnodup : l.Nodup) :
    FindsFirst visit P l s ↔ ∀ before q after, l = before ++ q :: after → NoneOf P before →
      ∃ t, scan visit before s = .ok (.next t) ∧ Decides visit P before q t := by
  constructor
  · intro h before q after hsplit hnone
    by_cases hlater : NoneOf P l
    · obtain ⟨u, hu⟩ := h.nothing hlater
      rw [hsplit] at hu
      obtain ⟨t, ht, hu⟩ := scan_append_eq_next hu
      obtain ⟨v, hv, -⟩ := scan_cons_eq_next hu
      exact ⟨t, ht, fun hP => absurd hP (hlater before q after hsplit), fun _ => ⟨v, hv⟩⟩
    · obtain ⟨before', q', after', hsplit', hnone', hq'⟩ := exists_first hlater
      obtain ⟨t', ht', hdone⟩ := scan_done_self hself hnodup hsplit' (h.first before' q' after' hsplit' hnone' hq')
      rcases List.append_eq_append_iff.mp (hsplit.symm.trans hsplit') with ⟨c, rfl, hc⟩ | ⟨c, rfl, hc⟩
      · cases c with
        | nil =>
          obtain ⟨rfl, -⟩ := List.cons.inj hc
          rw [List.append_nil] at ht' hq'
          exact ⟨t', ht', fun _ => hdone, fun hP => absurd hq' hP⟩
        | cons e c =>
          obtain ⟨rfl, -⟩ := List.cons.inj hc
          obtain ⟨t, ht, hnext⟩ := scan_append_eq_next ht'
          obtain ⟨v, hv, -⟩ := scan_cons_eq_next hnext
          exact ⟨t, ht, fun hP => absurd hP (hnone' before q c rfl), fun _ => ⟨v, hv⟩⟩
      · cases c with
        | nil =>
          obtain ⟨rfl, -⟩ := List.cons.inj hc
          rw [List.append_nil]
          exact ⟨t', ht', fun _ => hdone, fun hP => absurd hq' hP⟩
        | cons e c =>
          obtain ⟨rfl, -⟩ := List.cons.inj hc
          exact absurd hq' (hnone before' q' c rfl)
  · intro h
    constructor
    · intro before q after hsplit hnone hP
      obtain ⟨t, ht, hdecides⟩ := h before q after hsplit hnone
      rw [hsplit, scan_append_next ht, scan_cons_done (hdecides.1 hP)]
    · intro hnone
      refine scan_passes (fun before q after t hsplit ht => ?_) hnone
      obtain ⟨t', ht', hdecides⟩ := h before q after hsplit (hsplit ▸ hnone).of_append
      rw [ht] at ht'
      cases ht'
      exact hdecides

/-- What the visit of an item does in a state that is `kept`: it takes the item, it goes on to
`step`, or it fails where the item is not `safe`. -/
structure Folds (visit : ε → σ → Exec (Round σ ε)) (kept : σ → Prop) (safe : ε → Prop) (takes : σ → ε → Prop)
    (step : σ → ε → σ) : Prop where
  taken : ∀ t q, kept t → safe q → takes t q → visit q t = .ok (.done q)
  passed : ∀ t q, kept t → safe q → ¬takes t q → visit q t = .ok (.next (step t q))
  failed : ∀ t q, kept t → ¬safe q → ∀ a, visit q t ≠ .ok a
  keeps : ∀ t q, kept t → kept (step t q)

namespace Folds
variable {kept : σ → Prop} {safe : ε → Prop} {takes : σ → ε → Prop} {step : σ → ε → σ}

theorem kept_foldl (h : Folds visit kept safe takes step) (hs : kept s) (l : List ε) : kept (l.foldl step s) := by
  induction l generalizing s with
  | nil => exact hs
  | cons e l ih => exact ih (h.keeps s e hs)

/-- A scan that goes on has folded the items. -/
theorem scan_next (h : Folds visit kept safe takes step) (hs : kept s) (hscan : scan visit l s = .ok (.next t)) :
    t = l.foldl step s := by
  induction l generalizing s with
  | nil =>
    cases hscan
    rfl
  | cons e l ih =>
    obtain ⟨u, hvisit, hrest⟩ := scan_cons_eq_next hscan
    have hsafe : safe e := not_not.mp fun hsafe => h.failed s e hs hsafe _ hvisit
    have htakes : ¬takes s e := by
      intro htakes
      rw [h.taken s e hs hsafe htakes] at hvisit
      cases hvisit
    rw [h.passed s e hs hsafe htakes] at hvisit
    cases hvisit
    exact ih (h.keeps s e hs) hrest

theorem decides_iff (h : Folds visit kept safe takes step) (ht : kept t) :
    Decides visit P before q t ↔ safe q ∧ (takes t q ↔ P before q) := by
  constructor
  · intro hdecides
    have hsafe : safe q := by
      by_contra hsafe
      by_cases hP : P before q
      · exact h.failed t q ht hsafe _ (hdecides.1 hP)
      · obtain ⟨u, hu⟩ := hdecides.2 hP
        exact h.failed t q ht hsafe _ hu
    refine ⟨hsafe, fun htakes => ?_, fun hP => ?_⟩
    · by_contra hP
      obtain ⟨u, hu⟩ := hdecides.2 hP
      rw [h.taken t q ht hsafe htakes] at hu
      cases hu
    · by_contra htakes
      have hdone := hdecides.1 hP
      rw [h.passed t q ht hsafe htakes] at hdone
      cases hdone
  · rintro ⟨hsafe, hiff⟩
    exact ⟨fun hP => h.taken t q ht hsafe (hiff.mpr hP),
      fun hP => ⟨step t q, h.passed t q ht hsafe fun htakes => hP (hiff.mp htakes)⟩⟩

/-- Such a scan finds the first item with a property exactly if, up to that item, all are safe
and it takes those that have the property. -/
theorem findsFirst_iff (h : Folds visit kept safe takes step) (hs : kept s)
    (hself : ∀ q t r, visit q t = .ok (.done r) → r = q) (hnodup : l.Nodup) :
    FindsFirst visit P l s ↔ ∀ before q after, l = before ++ q :: after → NoneOf P before →
      safe q ∧ (takes (before.foldl step s) q ↔ P before q) := by
  rw [Loop.findsFirst_iff hself hnodup]
  constructor
  · intro hfirst before q after hsplit hnone
    obtain ⟨t, ht, hdecides⟩ := hfirst before q after hsplit hnone
    rw [h.scan_next hs ht] at hdecides
    exact (h.decides_iff (h.kept_foldl hs before)).mp hdecides
  · intro hall before q after hsplit hnone
    have hpasses : ∃ t, scan visit before s = .ok (.next t) := by
      refine scan_passes (fun before' q' after' t hsplit' ht => ?_) hnone
      rw [h.scan_next hs ht, h.decides_iff (h.kept_foldl hs before')]
      refine hall before' q' (after' ++ q :: after) ?_ (hsplit' ▸ hnone).of_append
      rw [hsplit, hsplit', List.append_assoc, List.cons_append]
    obtain ⟨t, ht⟩ := hpasses
    refine ⟨t, ht, ?_⟩
    rw [h.scan_next hs ht, h.decides_iff (h.kept_foldl hs before)]
    exact hall before q after hsplit hnone

/-- Where all items are safe, the scan has an item as its result exactly if it takes that one
and none before it. -/
theorem scan_done_iff (h : Folds visit kept safe takes step) (hs : kept s)
    (hself : ∀ q t r, visit q t = .ok (.done r) → r = q) (hnodup : l.Nodup) (hsafe : ∀ e ∈ l, safe e)
    (hsplit : l = before ++ q :: after) :
    scan visit l s = .ok (.done q) ↔
      takes (before.foldl step s) q ∧ NoneOf (fun before e => takes (before.foldl step s) e) before := by
  have hq : safe q := hsafe q (hsplit ▸ List.mem_append_right before List.mem_cons_self)
  constructor
  · intro hscan
    obtain ⟨t, ht, hvisit⟩ := scan_done_self hself hnodup hsplit hscan
    constructor
    · rw [← h.scan_next hs ht]
      by_contra htakes
      rw [h.passed t q (h.scan_next hs ht ▸ h.kept_foldl hs before) hq htakes] at hvisit
      cases hvisit
    · rintro b e a rfl htakes
      obtain ⟨u, hu, hrest⟩ := scan_append_eq_next ht
      obtain ⟨v, hv, -⟩ := scan_cons_eq_next hrest
      have he : safe e := hsafe e (by rw [hsplit]; simp)
      rw [h.scan_next hs hu, h.taken _ e (h.kept_foldl hs b) he htakes] at hv
      cases hv
  · rintro ⟨htakes, hnone⟩
    have hfirst : FindsFirst visit (fun before e => takes (before.foldl step s) e) l s :=
      (h.findsFirst_iff hs hself hnodup).mpr fun b e a hsplit' _ =>
        ⟨hsafe e (hsplit' ▸ List.mem_append_right b List.mem_cons_self), Iff.rfl⟩
    exact hfirst.first before q after hsplit hnone htakes

end Folds

end First

/-- Items that change nothing. -/
theorem scan_idle (h : ∀ e ∈ l, visit e s = .ok (.next s)) : scan visit l s = .ok (.next s) := by
  induction l with
  | nil => rfl
  | cons e l ih =>
    rw [scan_cons_next (h e List.mem_cons_self)]
    exact ih fun e' he' => h e' (List.mem_cons_of_mem e he')

/-- The states that a loop comes to. -/
inductive Reaches (round : σ → Exec (Round σ ρ)) : σ → σ → Prop
  | refl (s : σ) : Reaches round s s
  | step {s t u : σ} (h : round s = .ok (.next t)) (hu : Reaches round t u) : Reaches round s u

theorem Reaches.invariant {round : σ → Exec (Round σ ρ)} (inv : σ → Prop)
    (hkeeps : ∀ s t, inv s → round s = .ok (.next t) → inv t) (h : Reaches round s t) (hs : inv s) : inv t := by
  induction h with
  | refl s => exact hs
  | step hround _ ih => exact ih (hkeeps _ _ hs hround)

theorem reaches_next_iff {round : σ → Exec (Round σ ρ)} (h : round s = .ok (.next t)) :
    Reaches round s u ↔ u = s ∨ Reaches round t u := by
  constructor
  · intro hreaches
    cases hreaches with
    | refl => exact Or.inl rfl
    | step hround hu =>
      rw [h] at hround
      cases hround
      exact Or.inr hu
  · rintro (rfl | hu)
    · exact .refl u
    · exact .step h hu

theorem reaches_last_iff {round : σ → Exec (Round σ ρ)} (h : ∀ t, round s ≠ .ok (.next t)) :
    Reaches round s u ↔ u = s := by
  constructor
  · intro hreaches
    cases hreaches with
    | refl => rfl
    | step hround _ => exact absurd hround (h _)
  · rintro rfl
    exact .refl u

/-- A loop has its result in a state that it comes to. -/
theorem run_some {round : σ → Exec (Round σ ρ)} {n : ℕ} (h : run round n s = .ok (some r)) :
    ∃ t, Reaches round s t ∧ round t = .ok (.done r) := by
  induction n generalizing s with
  | zero => cases h
  | succ n ih =>
    cases hround : round s with
    | error x =>
      rw [run_error hround] at h
      cases h
    | ok a =>
      cases a with
      | done r' =>
        rw [run_done hround] at h
        cases h
        exact ⟨s, .refl s, hround⟩
      | next u =>
        rw [run_next hround] at h
        obtain ⟨t, hreaches, ht⟩ := ih h
        exact ⟨t, .step hround hreaches, ht⟩

end DualFuse.Library.Loop
