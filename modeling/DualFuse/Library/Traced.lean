import DualFuse.Library.Execution

/-! Executions that record the accesses they make. The record survives a stop, so it
holds the access at which an execution stopped. What a run accesses is followed
from what its steps access. -/

namespace DualFuse.Library

universe u

/-- The accesses of an execution, in order, and its result. -/
structure Traced (ε : Type) (α : Type u) where
  accesses : List ε
  result : Exec α

namespace Traced

variable {ε : Type} {α β : Type u}

/-- An execution without accesses. -/
def quiet (m : Exec α) : Traced ε α := ⟨[], m⟩

/-- An execution that makes one access. -/
def access (e : ε) (m : Exec α) : Traced ε α := ⟨[e], m⟩

def bind (m : Traced ε α) (f : α → Traced ε β) : Traced ε β :=
  match m.result with
  | .ok a => ⟨m.accesses ++ (f a).accesses, (f a).result⟩
  | .error e => ⟨m.accesses, .error e⟩

instance : Monad (Traced ε) where
  pure a := quiet (.ok a)
  bind := bind

instance : MonadLift Exec (Traced ε) where
  monadLift := quiet

section Results
variable {m : Traced ε α} {f : α → Traced ε β}

@[simp] theorem result_pure (a : α) : (pure a : Traced ε α).result = .ok a := rfl

@[simp] theorem result_quiet (m : Exec α) : (quiet m : Traced ε α).result = m := rfl

@[simp] theorem result_lift (m : Exec α) : (liftM m : Traced ε α).result = m := rfl

@[simp] theorem result_access (e : ε) (m : Exec α) : (access e m).result = m := rfl

@[simp] theorem pure_bind (a : α) (f : α → Traced ε β) : pure a >>= f = f a := rfl

/-- The record does not change what is computed. -/
@[simp] theorem result_bind : (m >>= f).result = m.result >>= fun a => (f a).result := by
  change (bind m f).result = _
  unfold bind
  cases m.result with
  | error e => rfl
  | ok a => rfl

@[simp] theorem result_ite (p : Prop) [Decidable p] (m m' : Traced ε α) :
    (if p then m else m').result = if p then m.result else m'.result := apply_ite _ _ _ _

end Results

/-- Every access meets `P`. -/
def Within (P : ε → Prop) (m : Traced ε α) : Prop := ∀ e ∈ m.accesses, P e

instance Within.decidable {P : ε → Prop} [∀ e, Decidable (P e)] (m : Traced ε α) : Decidable (m.Within P) :=
  inferInstanceAs (Decidable (∀ e ∈ m.accesses, P e))

section Within
variable {P : ε → Prop} {m : Traced ε α} {f : α → Traced ε β}

@[simp] theorem within_pure (a : α) : (pure a : Traced ε α).Within P := fun _ h => absurd h List.not_mem_nil

@[simp] theorem within_quiet (m : Exec α) : (quiet m : Traced ε α).Within P := fun _ h => absurd h List.not_mem_nil

@[simp] theorem within_lift (m : Exec α) : (liftM m : Traced ε α).Within P := within_quiet m

@[simp] theorem within_access (e : ε) (m : Exec α) : (access e m).Within P ↔ P e :=
  ⟨fun h => h e List.mem_cons_self, fun h _ he' => List.mem_singleton.mp he' ▸ h⟩

/-- The rest of a sequence is reached only where its first part does not stop. -/
theorem within_bind_iff : (m >>= f).Within P ↔ m.Within P ∧ ∀ a, m.result = .ok a → (f a).Within P := by
  change (bind m f).Within P ↔ _
  unfold bind
  cases hm : m.result with
  | error e => simp [Within]
  | ok a => simp [Within, or_imp, forall_and]

theorem Within.bind (hm : m.Within P) (hf : ∀ a, m.result = .ok a → (f a).Within P) : (m >>= f).Within P :=
  within_bind_iff.mpr ⟨hm, hf⟩

/-- A rest whose result is known only by what it meets. -/
theorem Within.bind_of_meets {E : Stop → Prop} {Q : α → Prop} (hm : m.Within P) (hq : Exec.Meets E Q m.result)
    (hf : ∀ a, Q a → (f a).Within P) : (m >>= f).Within P :=
  hm.bind fun a ha => hf a ((Exec.meets_iff.mp hq).1 a ha)

end Within

/-- The execution ends with this result, and every access on the way meets `P`. -/
def Yields (P : ε → Prop) (m : Traced ε α) (a : α) : Prop := m.result = .ok a ∧ m.Within P

section Yields
variable {P : ε → Prop} {m : Traced ε α} {f : α → Traced ε β} {a : α} {b : β}

theorem yields_pure (a : α) : Yields P (pure a : Traced ε α) a := ⟨rfl, within_pure a⟩

theorem Yields.bind (hm : Yields P m a) (hf : Yields P (f a) b) : Yields P (m >>= f) b := by
  refine ⟨?_, hm.2.bind fun c hc => ?_⟩
  · rw [result_bind, hm.1]
    exact hf.1
  · cases hm.1.symm.trans hc
    exact hf.2

/-- What is left to look at after a part that yields. -/
theorem Yields.within_bind_iff (hm : Yields P m a) : (m >>= f).Within P ↔ (f a).Within P := by
  rw [Traced.within_bind_iff]
  refine ⟨fun h => h.2 a hm.1, fun h => ⟨hm.2, fun c hc => ?_⟩⟩
  cases hm.1.symm.trans hc
  exact h

end Yields

section Runs
variable {σ ι : Type u}

/-- The run of a list of inputs, with its accesses. -/
def run (step : σ → ι → Traced ε σ) (s : σ) (ops : List ι) : Traced ε σ := ops.foldlM step s

variable {step : σ → ι → Traced ε σ}

@[simp] theorem run_nil (s : σ) : run step s [] = pure s := rfl

@[simp] theorem run_cons (s : σ) (o : ι) (ops : List ι) :
    run step s (o :: ops) = step s o >>= fun s => run step s ops := rfl

theorem run_result (s : σ) (ops : List ι) :
    (run step s ops).result = Library.run (fun s o => (step s o).result) s ops := by
  induction ops generalizing s with
  | nil => rfl
  | cons o ops ih => simp only [run_cons, Library.run_cons, result_bind, ih]

theorem within_run {P : ε → Prop} {ops : List ι} (h : ∀ s, ∀ o ∈ ops, (step s o).Within P) (s : σ) :
    (run step s ops).Within P := by
  induction ops generalizing s with
  | nil => exact within_pure s
  | cons o ops ih =>
    have hops : ∀ s, ∀ o ∈ ops, (step s o).Within P := fun s o ho => h s o (List.mem_cons_of_mem _ ho)
    exact (h s o List.mem_cons_self).bind fun t _ => ih hops t

/-- A run that does not stop made the accesses of all its inputs. -/
theorem forall_of_within_run {P : ε → Prop} {Q : ι → Prop}
    (hstep : ∀ s o s', (step s o).result = .ok s' → (step s o).Within P → Q o) {ops : List ι} {s s' : σ}
    (hrun : (run step s ops).result = .ok s') (h : (run step s ops).Within P) : ∀ o ∈ ops, Q o := by
  induction ops generalizing s with
  | nil => exact fun o ho => absurd ho List.not_mem_nil
  | cons o ops ih =>
    rw [run_cons, result_bind, Exec.bind_ok_iff] at hrun
    obtain ⟨t, ht, hrun⟩ := hrun
    rw [run_cons, within_bind_iff] at h
    rw [List.forall_mem_cons]
    exact ⟨hstep s o t ht h.1, ih hrun (h.2 t ht)⟩

/-- Where the accesses of a step meet `P` exactly when the step is guarded, and guarded
steps keep an invariant, the same holds of runs. -/
theorem within_run_iff_guarded {E : Stop → Prop} {P : ε → Prop} {inv : σ → Prop} {guard : σ → ι → Prop}
    (hstep : ∀ s o, inv s → guard s o → Exec.Meets E inv (step s o).result)
    (hguard : ∀ s o, inv s → ((step s o).Within P ↔ guard s o)) {s : σ} (hs : inv s) (ops : List ι) :
    (run step s ops).Within P ↔ Guarded (fun s o => (step s o).result) guard s ops := by
  induction ops generalizing s with
  | nil => exact ⟨fun _ => trivial, fun _ => within_pure s⟩
  | cons o ops ih =>
    rw [run_cons, within_bind_iff, hguard s o hs, Guarded]
    refine and_congr_right fun ho => forall₂_congr fun t ht => ?_
    exact ih ((Exec.meets_iff.mp (hstep s o hs ho)).1 t ht)

end Runs

end Traced

end DualFuse.Library
