import DualFuse.Library.Execution

/-! Listing by calls. A cursor is asked again and again, and each answer has some items; what
is left goes down by the items of each answer. If every call gives something as long as
something is left, the answers together are the list, and the next one says so. -/

namespace DualFuse.Library.Cursor

variable {σ ι ρ α : Type}

/-- The state and the items after the first `n` calls. -/
def listed (call : ι → σ → Exec (σ × ρ)) (items : ρ → List α) (input : ℕ → ι) (s : σ) : ℕ → Exec (σ × List α)
  | 0 => .ok (s, [])
  | n + 1 => do
    let before ← listed call items input s n
    let after ← call (input n) before.1
    .ok (after.1, before.2 ++ items after.2)

/-- The calls give the list, each of them some of it, until one gives the end. -/
def Lists (call : ι → σ → Exec (σ × ρ)) (items : ρ → List α) (isEnd : ρ → Prop) (input : ℕ → ι) (s : σ)
    (full : List α) : Prop :=
  ∃ n t, listed call items input s n = .ok (t, full) ∧ (∃ u r, call (input n) t = .ok (u, r) ∧ isEnd r) ∧
    ∀ m < n, ∀ t l, listed call items input s m = .ok (t, l) → ∃ u r, call (input m) t = .ok (u, r) ∧ ¬isEnd r

/-- What a call with this input does in this state: it takes its items off what is left, and
gives the end only if nothing is left. -/
structure Takes (call : ι → σ → Exec (σ × ρ)) (items : ρ → List α) (isEnd : ρ → Prop) (left : σ → List α)
    (inv : σ → Prop) (i : ι) (s : σ) : Prop where
  result : ∃ t r, call i s = .ok (t, r) ∧ inv t ∧ left s = items r ++ left t ∧ (isEnd r ↔ items r = []) ∧
    (items r = [] → left s = [])

variable {call : ι → σ → Exec (σ × ρ)} {items : ρ → List α} {isEnd : ρ → Prop} {left : σ → List α} {inv : σ → Prop}
  {input : ℕ → ι} {s : σ}

theorem listed_succ {n : ℕ} {t u : σ} {l : List α} {r : ρ} (h : listed call items input s n = .ok (t, l))
    (hcall : call (input n) t = .ok (u, r)) : listed call items input s (n + 1) = .ok (u, l ++ items r) := by
  rw [listed, h, Exec.ok_bind, hcall]
  rfl

/-- From any point of the calls on, the rest is listed. -/
theorem lists_from
    (htakes : ∀ n t l, inv t → listed call items input s n = .ok (t, l) →
      Takes call items isEnd left inv (input n) t)
    {k n : ℕ} {t : σ} {l : List α} (hk : (left t).length ≤ k) (hinv : inv t)
    (hn : listed call items input s n = .ok (t, l))
    (hbefore : ∀ m < n, ∀ t l, listed call items input s m = .ok (t, l) →
      ∃ u r, call (input m) t = .ok (u, r) ∧ ¬isEnd r) :
    Lists call items isEnd input s (l ++ left t) := by
  induction k generalizing n t l with
  | zero =>
    have hnil : left t = [] := List.length_eq_zero_iff.mp (Nat.le_zero.mp hk)
    obtain ⟨u, r, hcall, -, hleft, hend, -⟩ := (htakes n t l hinv hn).result
    rw [hnil] at hleft ⊢
    have hitems : items r = [] := (List.append_eq_nil_iff.mp hleft.symm).1
    rw [List.append_nil]
    exact ⟨n, t, hn, ⟨u, r, hcall, hend.mpr hitems⟩, hbefore⟩
  | succ k ih =>
    obtain ⟨u, r, hcall, hu, hleft, hend, hdry⟩ := (htakes n t l hinv hn).result
    by_cases hitems : items r = []
    · rw [hdry hitems, List.append_nil]
      exact ⟨n, t, hn, ⟨u, r, hcall, hend.mpr hitems⟩, hbefore⟩
    · rw [hleft, ← List.append_assoc]
      have hpos := List.length_pos_iff.mpr hitems
      have hlen := congrArg List.length hleft
      rw [List.length_append] at hlen
      refine ih (by omega) hu (listed_succ hn hcall) ?_
      intro m hm t' l' ht'
      rcases Nat.lt_succ_iff_lt_or_eq.mp hm with hlt | rfl
      · exact hbefore m hlt t' l' ht'
      · rw [hn] at ht'
        cases ht'
        exact ⟨u, r, hcall, fun hc => hitems (hend.mp hc)⟩

/-- Calls that take what they give off what is left list all of it. -/
theorem lists_of_takes (hs : inv s)
    (htakes : ∀ n t l, inv t → listed call items input s n = .ok (t, l) →
      Takes call items isEnd left inv (input n) t) :
    Lists call items isEnd input s (left s) :=
  lists_from htakes le_rfl hs rfl fun m hm => absurd hm (Nat.not_lt_zero m)

/-- The first calls depend on the first inputs. -/
theorem listed_congr {input' : ℕ → ι} {n : ℕ} (h : ∀ m < n, input m = input' m) :
    listed call items input s n = listed call items input' s n := by
  induction n with
  | zero => rfl
  | succ n ih => rw [listed, listed, ih fun m hm => h m (hm.trans n.lt_succ_self), h n n.lt_succ_self]

/-- The items of later calls come behind those of earlier ones. -/
theorem listed_prefix {m n : ℕ} {t u : σ} {l l' : List α} (hmn : m ≤ n)
    (hm : listed call items input s m = .ok (t, l)) (hn : listed call items input s n = .ok (u, l')) : l <+: l' := by
  induction n, hmn using Nat.le_induction generalizing u l' with
  | base =>
    rw [hm] at hn
    cases hn
    exact List.prefix_rfl
  | succ n hmn ih =>
    rw [listed] at hn
    obtain ⟨⟨v, l₁⟩, hl₁, hn⟩ := Exec.bind_ok_iff.mp hn
    obtain ⟨⟨w, r⟩, -, hn⟩ := Exec.bind_ok_iff.mp hn
    cases hn
    exact (ih hl₁).trans (List.prefix_append _ _)

/-- What each call keeps holds after all of them. -/
theorem listed_invariant (hkeeps : ∀ n t u r, inv t → call (input n) t = .ok (u, r) → inv u) (hs : inv s) {n : ℕ}
    {t : σ} {l : List α} (h : listed call items input s n = .ok (t, l)) : inv t := by
  induction n generalizing t l with
  | zero =>
    cases h
    exact hs
  | succ n ih =>
    rw [listed] at h
    obtain ⟨⟨v, l₁⟩, hl₁, h⟩ := Exec.bind_ok_iff.mp h
    obtain ⟨⟨w, r⟩, hcall, h⟩ := Exec.bind_ok_iff.mp h
    cases h
    exact hkeeps n v _ r (ih hl₁) hcall

/-- The calls have one listing. -/
theorem Lists.unique {isEnd : ρ → Prop} {full full' : List α} (h : Lists call items isEnd input s full)
    (h' : Lists call items isEnd input s full') : full = full' := by
  obtain ⟨n, t, hn, ⟨u, r, hcall, hend⟩, hbefore⟩ := h
  obtain ⟨n', t', hn', ⟨u', r', hcall', hend'⟩, hbefore'⟩ := h'
  rcases lt_trichotomy n n' with hlt | rfl | hlt
  · obtain ⟨v, q, hv, hnot⟩ := hbefore' n hlt t full hn
    rw [hcall] at hv
    cases hv
    exact absurd hend hnot
  · rw [hn] at hn'
    cases hn'
    rfl
  · obtain ⟨v, q, hv, hnot⟩ := hbefore n' hlt t' full' hn'
    rw [hcall'] at hv
    cases hv
    exact absurd hend' hnot

section Steps
variable {τ ρ' : Type} {call' : ι → τ → Exec (τ × ρ')} {items' : ρ' → List α} {isEnd : ρ → Prop} {isEnd' : ρ' → Prop}
  {rel : σ → τ → Prop} {t : τ}

/-- A call of each of two cursors gives the same items, and keeps them related. -/
def Same (call : ι → σ → Exec (σ × ρ)) (items : ρ → List α) (isEnd : ρ → Prop) (call' : ι → τ → Exec (τ × ρ'))
    (items' : ρ' → List α) (isEnd' : ρ' → Prop) (rel : σ → τ → Prop) (i : ι) : Prop :=
  ∀ s t, rel s t → ∃ s' r t' r', call i s = .ok (s', r) ∧ call' i t = .ok (t', r') ∧ rel s' t' ∧
    items r = items' r' ∧ (isEnd r ↔ isEnd' r')

theorem listed_same (hsame : ∀ n, Same call items isEnd call' items' isEnd' rel (input n)) (h : rel s t) (n : ℕ) :
    ∃ s' t' l, listed call items input s n = .ok (s', l) ∧ listed call' items' input t n = .ok (t', l) ∧ rel s' t' := by
  induction n with
  | zero => exact ⟨s, t, [], rfl, rfl, h⟩
  | succ n ih =>
    obtain ⟨s', t', l, hs', ht', hrel⟩ := ih
    obtain ⟨s'', r, t'', r', hcall, hcall', hrel', hitems, -⟩ := hsame n s' t' hrel
    have hnext := listed_succ ht' hcall'
    rw [← hitems] at hnext
    exact ⟨s'', t'', _, listed_succ hs' hcall, hnext, hrel'⟩

theorem Lists.of_same (hsame : ∀ n, Same call items isEnd call' items' isEnd' rel (input n)) (h : rel s t)
    {full : List α} (hlists : Lists call items isEnd input s full) : Lists call' items' isEnd' input t full := by
  obtain ⟨n, u, hn, ⟨v, r, hcall, hend⟩, hbefore⟩ := hlists
  have hlisted := listed_same hsame h
  obtain ⟨s', t', l, hs', ht', hrel⟩ := hlisted n
  rw [hn] at hs'
  cases hs'
  obtain ⟨s'', r₁, t'', r', hcall₁, hcall', -, -, hends⟩ := hsame n u t' hrel
  rw [hcall] at hcall₁
  cases hcall₁
  refine ⟨n, t', ht', ⟨t'', r', hcall', hends.mp hend⟩, fun m hm t₁ l₁ h₁ => ?_⟩
  obtain ⟨s', t', l, hs', ht', hrel⟩ := hlisted m
  rw [h₁] at ht'
  cases ht'
  obtain ⟨s'', r₁, t'', r', hcall₁, hcall', -, -, hends⟩ := hsame m s' t₁ hrel
  obtain ⟨w, r₂, hcall₂, hnot⟩ := hbefore m hm s' l₁ hs'
  rw [hcall₁] at hcall₂
  cases hcall₂
  exact ⟨t'', r', hcall', fun hend' => hnot (hends.mpr hend')⟩

theorem Same.symm {i : ι} (h : Same call items isEnd call' items' isEnd' rel i) :
    Same call' items' isEnd' call items isEnd (fun t s => rel s t) i := by
  intro t s hrel
  obtain ⟨s', r, t', r', hcall, hcall', hrel', hitems, hend⟩ := h s t hrel
  exact ⟨t', r', s', r, hcall', hcall, hrel', hitems.symm, hend.symm⟩

/-- Related cursors have the same listings. -/
theorem lists_same_iff (hsame : ∀ n, Same call items isEnd call' items' isEnd' rel (input n)) (h : rel s t)
    (full : List α) : Lists call items isEnd input s full ↔ Lists call' items' isEnd' input t full :=
  ⟨fun hlists => hlists.of_same hsame h, fun hlists => hlists.of_same (fun n => (hsame n).symm) h⟩

end Steps

end DualFuse.Library.Cursor
