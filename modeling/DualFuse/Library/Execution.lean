import Mathlib.Tactic

/-! Executions that may stop before their end, and runs of a step function that
may stop. A step returns the next state or the reason it stopped; a run is the
left fold of its steps, so a stopped run has no final state. Invariants of runs
are proved once here from invariants of single steps. -/

namespace DualFuse.Library

universe u

/-- `halt`: the system halts itself. `assertion`: an assertion fails. `fault`: an
access outside an object. -/
inductive Stop where
  | halt | assertion | fault
  deriving DecidableEq, Repr

abbrev Exec := Except Stop

namespace Exec

variable {α β : Type u}

@[simp] theorem ok_bind (a : α) (f : α → Exec β) : (Except.ok a >>= f : Exec β) = f a := rfl

@[simp] theorem error_bind (e : Stop) (f : α → Exec β) : (Except.error e >>= f : Exec β) = .error e := rfl

@[simp] theorem bind_ok (m : Exec α) : (m >>= fun a => (Except.ok a : Exec α)) = m := by
  cases m <;> rfl

/-- A sequence succeeds exactly when its first part does and its rest does from there. -/
theorem bind_ok_iff {m : Exec α} {f : α → Exec β} {b : β} :
    m >>= f = .ok b ↔ ∃ a, m = .ok a ∧ f a = .ok b := by
  rcases m with e | a
  · simp
  · simp

/-- A result behind one test. -/
theorem guarded_ok_iff {p : Prop} [Decidable p] {r t : α} {e : Stop} :
    (if p then .ok r else .error e : Exec α) = .ok t ↔ p ∧ t = r := by
  split_ifs with hp
  · constructor
    · intro h
      exact ⟨hp, (Except.ok.inj h).symm⟩
    · exact fun h => congrArg _ h.2.symm
  · constructor
    · intro h
      cases h
    · exact fun h => absurd h.1 hp

/-- The result meets `Q`, or the execution stopped for a reason that meets `E`. -/
def Meets (E : Stop → Prop) (Q : α → Prop) : Exec α → Prop
  | .ok a => Q a
  | .error e => E e

section Meets
variable {E : Stop → Prop} {P Q : α → Prop} {R : β → Prop} {m : Exec α}

@[simp] theorem meets_ok (a : α) : Meets E Q (.ok a) ↔ Q a := Iff.rfl

@[simp] theorem meets_error (e : Stop) : Meets E Q (.error e) ↔ E e := Iff.rfl

theorem meets_iff : Meets E Q m ↔ (∀ a, m = .ok a → Q a) ∧ ∀ e, m = .error e → E e := by
  cases m with
  | error e => simp
  | ok a => simp

/-- An execution that may not stop has a result. -/
theorem meets_false_iff : Meets (fun _ => False) Q m ↔ ∃ a, m = .ok a ∧ Q a := by
  cases m with
  | error e => simp
  | ok a => simp

theorem meets_true (m : Exec α) : Meets (fun _ => True) (fun _ => True) m := by
  cases m with
  | error e => trivial
  | ok a => trivial

theorem Meets.mono (h : Meets E P m) (himp : ∀ a, P a → Q a) : Meets E Q m := by
  cases m with
  | error e => exact h
  | ok a => exact himp a h

theorem eq_error_of_meets {e : Stop} (h : Meets (· = e) (fun _ => False) m) : m = .error e := by
  cases m with
  | ok a => exact h.elim
  | error e' => exact congrArg _ h

theorem Meets.weaken {E' : Stop → Prop} (h : Meets E Q m) (himp : ∀ e, E e → E' e) : Meets E' Q m := by
  cases m with
  | error e => exact himp e h
  | ok a => exact h

theorem Meets.bind {f : α → Exec β} (h : Meets E P m) (hf : ∀ a, P a → Meets E R (f a)) : Meets E R (m >>= f) := by
  cases m with
  | error e => exact h
  | ok a => exact hf a h

theorem Meets.map {f : α → β} (h : Meets E P m) (hf : ∀ a, P a → R (f a)) : Meets E R (f <$> m) := by
  cases m with
  | error e => exact h
  | ok a => exact hf a h

theorem mapM_meets {E : Stop → Prop} {f : α → Exec β} {l : List α} (h : ∀ a ∈ l, Meets E (fun _ => True) (f a)) :
    Meets E (fun _ => True) (l.mapM f) := by
  induction l with
  | nil => trivial
  | cons a l ih =>
    rw [List.mapM_cons]
    apply (h a List.mem_cons_self).bind
    intro b _
    apply (ih fun a ha => h a (List.mem_cons_of_mem _ ha)).bind
    exact fun _ _ => trivial

end Meets

instance Meets.decidable {E : Stop → Prop} {Q : α → Prop} [∀ e, Decidable (E e)] [∀ a, Decidable (Q a)] :
    (m : Exec α) → Decidable (Meets E Q m)
  | .ok a => inferInstanceAs (Decidable (Q a))
  | .error e => inferInstanceAs (Decidable (E e))

instance decidableForallOk {P : α → Prop} [∀ a, Decidable (P a)] :
    (m : Exec α) → Decidable (∀ a, m = .ok a → P a)
  | .ok a => decidable_of_iff (P a) (by simp)
  | .error _ => isTrue (by simp)

instance decidableExistsOk {P : α → Prop} [∀ a, Decidable (P a)] :
    (m : Exec α) → Decidable (∃ a, m = .ok a ∧ P a)
  | .ok a => decidable_of_iff (P a) (by simp)
  | .error _ => isFalse (by simp)

end Exec

section Runs
variable {σ ι : Type u}

/-- The run of a list of inputs. -/
def run (step : σ → ι → Exec σ) (s : σ) (ops : List ι) : Exec σ := ops.foldlM step s

variable {step : σ → ι → Exec σ}

@[simp] theorem run_nil (s : σ) : run step s [] = .ok s := rfl

@[simp] theorem run_cons (s : σ) (o : ι) (ops : List ι) :
    run step s (o :: ops) = step s o >>= fun s => run step s ops := rfl

theorem run_append (s : σ) (p q : List ι) :
    run step s (p ++ q) = run step s p >>= fun s => run step s q := by
  simp [run, List.foldlM_append]

/-- Every input of a run that does not stop was taken in some state. -/
theorem step_ok_of_run_ok {ops : List ι} {s s' : σ} (h : run step s ops = .ok s') :
    ∀ o ∈ ops, ∃ t t', step t o = .ok t' := by
  induction ops generalizing s with
  | nil => exact fun o ho => absurd ho List.not_mem_nil
  | cons p ops ih =>
    rw [run_cons, Exec.bind_ok_iff] at h
    obtain ⟨t, ht, hrest⟩ := h
    intro o ho
    rcases List.mem_cons.mp ho with rfl | ho
    · exact ⟨s, t, ht⟩
    · exact ih hrest o ho

theorem run_meets_of_steps {E : Stop → Prop} {ops : List ι} {s : σ}
    (hstep : ∀ t, ∀ o ∈ ops, Exec.Meets E (fun _ => True) (step t o)) :
    Exec.Meets E (fun _ => True) (run step s ops) := by
  induction ops generalizing s with
  | nil => trivial
  | cons p ops ih =>
    rw [run_cons]
    apply (hstep s p List.mem_cons_self).bind
    exact fun t _ => ih fun t o ho => hstep t o (List.mem_cons_of_mem _ ho)

/-- Every step of the run meets its guard, which reads the state before it. -/
def Guarded (step : σ → ι → Exec σ) (guard : σ → ι → Prop) : σ → List ι → Prop
  | _, [] => True
  | s, o :: ops => guard s o ∧ ∀ s', step s o = .ok s' → Guarded step guard s' ops

instance Guarded.decidable {guard : σ → ι → Prop} [∀ s o, Decidable (guard s o)] :
    (s : σ) → (ops : List ι) → Decidable (Guarded step guard s ops)
  | _, [] => isTrue trivial
  | s, o :: ops =>
    have : ∀ s', Decidable (Guarded step guard s' ops) := fun s' => Guarded.decidable s' ops
    inferInstanceAs (Decidable (guard s o ∧ ∀ s', step s o = .ok s' → Guarded step guard s' ops))

/-- An invariant of every step that meets its guard is an invariant of every
run whose steps all meet theirs. -/
theorem run_invariant_of_guarded {inv : σ → Prop} {guard : σ → ι → Prop}
    (hstep : ∀ s o s', inv s → guard s o → step s o = .ok s' → inv s')
    {ops : List ι} {s s' : σ} (hs : inv s) (hguard : Guarded step guard s ops)
    (h : run step s ops = .ok s') : inv s' := by
  induction ops generalizing s with
  | nil => cases h; exact hs
  | cons o ops ih =>
    rw [run_cons, Exec.bind_ok_iff] at h
    obtain ⟨t, ht, h⟩ := h
    exact ih (hstep s o t hs hguard.1 ht) (hguard.2 t ht) h

theorem run_invariant {inv : σ → Prop}
    (hstep : ∀ s o s', inv s → step s o = .ok s' → inv s')
    {ops : List ι} {s s' : σ} (hs : inv s) (h : run step s ops = .ok s') : inv s' := by
  induction ops generalizing s with
  | nil => cases h; exact hs
  | cons o ops ih =>
    rw [run_cons, Exec.bind_ok_iff] at h
    obtain ⟨t, ht, h⟩ := h
    exact ih (hstep s o t hs ht) h

/-- A guarded run meets what each guarded step meets. -/
theorem run_meets_of_guarded {E : Stop → Prop} {inv : σ → Prop} {guard : σ → ι → Prop}
    (hstep : ∀ s o, inv s → guard s o → Exec.Meets E inv (step s o))
    {ops : List ι} {s : σ} (hs : inv s) (hguard : Guarded step guard s ops) : Exec.Meets E inv (run step s ops) := by
  induction ops generalizing s with
  | nil => exact hs
  | cons o ops ih =>
    have ho := hstep s o hs hguard.1
    rw [run_cons]
    cases h : step s o with
    | error e =>
      rw [h] at ho
      exact ho
    | ok t =>
      rw [h] at ho
      exact ih ho (hguard.2 t h)

/-- Every part of the run that comes first meets `P`, or stopped for a reason that meets `E`. -/
def Throughout (step : σ → ι → Exec σ) (E : Stop → Prop) (P : σ → Prop) (s : σ) (ops : List ι) : Prop :=
  ∀ done todo, ops = done ++ todo → Exec.Meets E P (run step s done)

/-- A run that may not stop reaches its end. -/
theorem Throughout.ok {P : σ → Prop} {s : σ} {ops : List ι} (h : Throughout step (fun _ => False) P s ops) :
    ∃ s', run step s ops = .ok s' ∧ P s' :=
  Exec.meets_false_iff.mp (h ops [] (List.append_nil ops).symm)

theorem Throughout.tail {E : Stop → Prop} {P : σ → Prop} {s s' : σ} {o : ι} {ops : List ι}
    (h : Throughout step E P s (o :: ops)) (ho : step s o = .ok s') : Throughout step E P s' ops := by
  intro done todo heq
  have hrun := h (o :: done) todo (by rw [heq, List.cons_append])
  rwa [run_cons, ho, Exec.ok_bind] at hrun

theorem Guarded.of_append {guard : σ → ι → Prop} {s : σ} {done todo : List ι}
    (h : Guarded step guard s (done ++ todo)) : Guarded step guard s done := by
  induction done generalizing s with
  | nil => trivial
  | cons o done ih => exact ⟨h.1, fun s' hs' => ih (h.2 s' hs')⟩

theorem Guarded.rest {guard : σ → ι → Prop} {s s' : σ} {done todo : List ι}
    (h : Guarded step guard s (done ++ todo)) (hrun : run step s done = .ok s') : Guarded step guard s' todo := by
  induction done generalizing s with
  | nil =>
    cases hrun
    exact h
  | cons o done ih =>
    rw [run_cons, Exec.bind_ok_iff] at hrun
    obtain ⟨t, ht, hrun⟩ := hrun
    exact ih (h.2 t ht) hrun

/-- An invariant of every guarded step holds throughout a guarded run. -/
theorem throughout_of_guarded {E : Stop → Prop} {P inv : σ → Prop} {guard : σ → ι → Prop}
    (hinv : ∀ s, inv s → P s) (hstep : ∀ s o, inv s → guard s o → Exec.Meets E inv (step s o))
    {ops : List ι} {s : σ} (hs : inv s) (hguard : Guarded step guard s ops) : Throughout step E P s ops := by
  rintro done todo rfl
  exact (run_meets_of_guarded hstep hs hguard.of_append).mono hinv

/-- Where a valid and guarded step keeps an invariant and a valid step that keeps `P` was guarded, `P`
holds throughout a run of valid steps exactly when all of them meet their guard. -/
theorem throughout_iff_guarded_of_valid {E : Stop → Prop} {P inv : σ → Prop} {valid guard : σ → ι → Prop}
    (hinv : ∀ s, inv s → P s)
    (hstep : ∀ s o, inv s → valid s o → guard s o → Exec.Meets E inv (step s o))
    (hguard : ∀ s o, inv s → valid s o → Exec.Meets E P (step s o) → guard s o)
    {ops : List ι} {s : σ} (hs : inv s) (hvalid : Guarded step valid s ops) :
    Throughout step E P s ops ↔ Guarded step guard s ops := by
  induction ops generalizing s with
  | nil =>
    refine ⟨fun _ => trivial, fun _ done todo heq => ?_⟩
    obtain ⟨rfl, -⟩ := List.append_eq_nil_iff.mp heq.symm
    exact hinv s hs
  | cons o ops ih =>
    obtain ⟨hfirst, hlater⟩ := hvalid
    constructor
    · intro hrun
      have hmeets : Exec.Meets E P (step s o) := by
        have := hrun [o] ops rfl
        rwa [run_cons, show (fun s => run step s []) = fun a => (.ok a : Exec σ) from rfl, Exec.bind_ok] at this
      have ho := hguard s o hs hfirst hmeets
      have hnext := hstep s o hs hfirst ho
      refine ⟨ho, fun s' hs' => ?_⟩
      rw [hs'] at hnext
      exact (ih hnext (hlater s' hs')).mp (hrun.tail hs')
    · rintro ⟨ho, hrest⟩ done todo heq
      cases done with
      | nil => exact hinv s hs
      | cons o' done =>
        obtain ⟨rfl, hops⟩ := List.cons_eq_cons.mp heq
        have hnext := hstep s o hs hfirst ho
        rw [run_cons]
        cases hs' : step s o with
        | error e =>
          rw [hs'] at hnext
          exact hnext
        | ok s' =>
          rw [hs'] at hnext
          exact (ih hnext (hlater s' hs')).mpr (hrest s' hs') done todo hops

/-- Two guards that say the same of a state with an invariant, which guarded steps keep, are met by
the same runs. -/
theorem guarded_iff {inv : σ → Prop} {guard guard' : σ → ι → Prop}
    (hiff : ∀ s o, inv s → (guard s o ↔ guard' s o))
    (hkeeps : ∀ s o s', inv s → guard' s o → step s o = .ok s' → inv s')
    {ops : List ι} {s : σ} (hs : inv s) : Guarded step guard s ops ↔ Guarded step guard' s ops := by
  induction ops generalizing s with
  | nil => exact Iff.rfl
  | cons o ops ih =>
    have hlater (hguard : guard' s o) : (∀ s', step s o = .ok s' → Guarded step guard s' ops) ↔
        ∀ s', step s o = .ok s' → Guarded step guard' s' ops :=
      forall_congr' fun s' => forall_congr' fun hstep => ih (hkeeps s o s' hs hguard hstep)
    exact (and_congr_left' (hiff s o hs)).trans (and_congr_right hlater)

theorem guarded_of_forall {guard : σ → ι → Prop} {ops : List ι} {s : σ} (h : ∀ t, ∀ o ∈ ops, guard t o) :
    Guarded step guard s ops := by
  induction ops generalizing s with
  | nil => trivial
  | cons o ops ih =>
    exact ⟨h s o List.mem_cons_self, fun s' _ => ih fun t o ho => h t o (List.mem_cons_of_mem _ ho)⟩

/-- Where a guarded step keeps an invariant and a step that keeps `P` was guarded, `P` holds
throughout a run exactly when all its steps meet their guard. -/
theorem throughout_iff_guarded {E : Stop → Prop} {P inv : σ → Prop} {guard : σ → ι → Prop} {ops : List ι}
    (hinv : ∀ s, inv s → P s)
    (hstep : ∀ s, ∀ o ∈ ops, inv s → guard s o → Exec.Meets E inv (step s o))
    (hguard : ∀ s, ∀ o ∈ ops, inv s → Exec.Meets E P (step s o) → guard s o)
    {s : σ} (hs : inv s) : Throughout step E P s ops ↔ Guarded step guard s ops :=
  throughout_iff_guarded_of_valid hinv (fun s o h ho => hstep s o ho h) (fun s o h ho => hguard s o ho h) hs
    (guarded_of_forall fun _ _ ho => ho)

/-- A guarded run whose guarded steps never stop reaches its end. -/
theorem run_ok_of_guarded {inv : σ → Prop} {guard : σ → ι → Prop}
    (hstep : ∀ s o, inv s → guard s o → ∃ s', step s o = .ok s' ∧ inv s')
    {ops : List ι} {s : σ} (hs : inv s) (hguard : Guarded step guard s ops) :
    ∃ s', run step s ops = .ok s' ∧ inv s' :=
  Exec.meets_false_iff.mp (run_meets_of_guarded
    (fun s o h hg => Exec.meets_false_iff.mpr (hstep s o h hg)) hs hguard)

theorem run_ok {inv : σ → Prop} (hstep : ∀ s o, inv s → ∃ s', step s o = .ok s' ∧ inv s')
    {ops : List ι} {s : σ} (hs : inv s) : ∃ s', run step s ops = .ok s' ∧ inv s' := by
  induction ops generalizing s with
  | nil => exact ⟨s, rfl, hs⟩
  | cons o ops ih =>
    obtain ⟨t, ht, hinv⟩ := hstep s o hs
    rw [run_cons, ht, Exec.ok_bind]
    exact ih hinv

/-- A guarded run that does not stop follows the run of a specification, where each guarded
step does. -/
theorem run_simulates_meets {τ : Type u} {E : Stop → Prop} {rel : σ → τ → Prop} {spec : τ → ι → τ}
    {guard : σ → ι → Prop}
    (hstep : ∀ s t o, rel s t → guard s o → Exec.Meets E (fun s' => rel s' (spec t o)) (step s o))
    {ops : List ι} {s : σ} {t : τ} (hs : rel s t) (hguard : Guarded step guard s ops) :
    Exec.Meets E (fun s' => rel s' (ops.foldl spec t)) (run step s ops) := by
  induction ops generalizing s t with
  | nil => exact hs
  | cons o ops ih =>
    have ho := hstep s t o hs hguard.1
    rw [run_cons, List.foldl_cons]
    cases h : step s o with
    | error e =>
      rw [h] at ho
      exact ho
    | ok s₁ =>
      rw [h] at ho
      exact ih ho (hguard.2 s₁ h)

/-- A guarded run follows the run of a specification whose steps never stop, where each
guarded step does. -/
theorem run_simulates {τ : Type u} {rel : σ → τ → Prop} {spec : τ → ι → τ} {guard : σ → ι → Prop}
    (hstep : ∀ s t o, rel s t → guard s o → ∃ s', step s o = .ok s' ∧ rel s' (spec t o))
    {ops : List ι} {s : σ} {t : τ} (hs : rel s t) (hguard : Guarded step guard s ops) :
    ∃ s', run step s ops = .ok s' ∧ rel s' (ops.foldl spec t) :=
  Exec.meets_false_iff.mp (run_simulates_meets
    (fun s t o h hg => Exec.meets_false_iff.mpr (hstep s t o h hg)) hs hguard)

/-- Where a step follows a specification if the specification's own state meets a guard, and stops
otherwise, a run follows it to its end exactly when the guard is met all the way. -/
theorem run_follows_iff {τ : Type u} {rel : σ → τ → Prop} {spec : τ → ι → τ} {guard : τ → ι → Prop}
    (hfollow : ∀ s t o, rel s t → guard t o → ∃ s', step s o = .ok s' ∧ rel s' (spec t o))
    (hstop : ∀ s t o, rel s t → ¬ guard t o → ∃ e, step s o = .error e)
    {ops : List ι} {s : σ} {t : τ} (hs : rel s t) :
    (∃ s', run step s ops = .ok s' ∧ rel s' (ops.foldl spec t)) ↔
      Guarded (fun t o => .ok (spec t o)) guard t ops := by
  induction ops generalizing s t with
  | nil => exact ⟨fun _ => trivial, fun _ => ⟨s, rfl, hs⟩⟩
  | cons o ops ih =>
    rw [run_cons, List.foldl_cons]
    by_cases hguard : guard t o
    · obtain ⟨s', hs', hrel⟩ := hfollow s t o hs hguard
      rw [hs', Exec.ok_bind, ih hrel]
      constructor
      · rintro hrest
        refine ⟨hguard, fun t' ht' => ?_⟩
        cases ht'
        exact hrest
      · exact fun h => h.2 _ rfl
    · obtain ⟨e, he⟩ := hstop s t o hs hguard
      rw [he]
      constructor
      · rintro ⟨s', hs', -⟩
        cases hs'
      · exact fun h => absurd h.1 hguard

/-- An invariant that knows the inputs taken so far, out of all those to come. -/
def Extends (step : σ → ι → Exec σ) (all : List ι) (inv : List ι → σ → Prop) : Prop :=
  ∀ done o todo s s', all = done ++ o :: todo → inv done s → step s o = .ok s' → inv (done ++ [o]) s'

theorem eq_nil_append_append_nil (l : List ι) : l = [] ++ l ++ [] := by
  rw [List.nil_append, List.append_nil]

theorem run_history {inv : List ι → σ → Prop} {all done ops todo : List ι} (hinv : Extends step all inv)
    (hall : all = done ++ ops ++ todo) {s s' : σ} (hs : inv done s) (h : run step s ops = .ok s') :
    inv (done ++ ops) s' := by
  induction ops generalizing s done with
  | nil => cases h; simpa using hs
  | cons o ops ih =>
    rw [run_cons, Exec.bind_ok_iff] at h
    obtain ⟨t, ht, h⟩ := h
    have hall' : all = done ++ [o] ++ ops ++ todo := by simpa using hall
    have := ih hall' (hinv done o (ops ++ todo) s t (by simpa using hall) hs ht) h
    simpa using this

theorem run_stop_of_history {inv : List ι → σ → Prop} {all done ops todo : List ι} {e : Stop}
    (hinv : Extends step all inv)
    (hstop : ∀ done o todo s e', all = done ++ o :: todo → inv done s → step s o = .error e' → e' = e)
    (hall : all = done ++ ops ++ todo) {s : σ} {e' : Stop} (hs : inv done s) (h : run step s ops = .error e') :
    e' = e := by
  induction ops generalizing s done with
  | nil => cases h
  | cons o ops ih =>
    have hall' : all = done ++ o :: (ops ++ todo) := by simpa using hall
    rw [run_cons] at h
    cases ho : step s o with
    | error e₁ =>
      rw [ho] at h
      cases h
      exact hstop done o _ s _ hall' hs ho
    | ok t =>
      rw [ho, Exec.ok_bind] at h
      exact ih (by simpa using hall) (hinv done o _ s t hall' hs ho) h

/-- A run whose steps are runs is one run, where an invariant makes each step the
run that it stands for. -/
theorem run_flatMap {κ : Type u} {inv : List ι → σ → Prop} {f : σ → κ → Exec σ} {g : κ → List ι} {l : List κ}
    {all done todo : List ι} (hinv : Extends step all inv) (hall : all = done ++ l.flatMap g ++ todo)
    (hf : ∀ done todo s, ∀ k ∈ l, all = done ++ g k ++ todo → inv done s → f s k = run step s (g k))
    {s : σ} (hs : inv done s) : run f s l = run step s (l.flatMap g) := by
  induction l generalizing s done with
  | nil => rfl
  | cons k l ih =>
    rw [List.flatMap_cons] at hall
    have hk : all = done ++ g k ++ (l.flatMap g ++ todo) := by simpa using hall
    rw [run_cons, List.flatMap_cons, run_append, hf done _ s k (by simp) hk hs]
    cases hrun : run step s (g k) with
    | error e => rfl
    | ok t =>
      rw [Exec.ok_bind, Exec.ok_bind]
      have hnext : inv (done ++ g k) t := run_history hinv hk hs hrun
      exact ih (by simpa using hall) (fun done todo s k' hk' => hf done todo s k' (List.mem_cons_of_mem _ hk')) hnext

end Runs

end DualFuse.Library
