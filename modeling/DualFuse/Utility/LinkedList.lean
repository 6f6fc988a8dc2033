import DualFuse.Library.Chain
import DualFuse.Library.Execution

/-! Linked lists (`utility/linked_list.cpp`). The header of an object is the address of
the next object, or zero at the end of the list. A loop over a list stops when its
fuel is used up, which stands for a loop that does not end. -/

namespace DualFuse.Utility

open Library

/-- The headers of the objects that are allocated, by address. -/
abbrev Links := ℕ → Option ℕ

structure LLcontrol where
  signature1 : ℕ
  signature2 : ℕ
  structSize : ℕ
  firstObject : ℕ
  deriving DecidableEq, Repr

def llSignature1 : ℕ := 0xa8ae0a9b148db421

def llSignature2 : ℕ := 0x7c9bfa1f171be6da

namespace LLcontrol

/-- What `calloc` returns. -/
def zero : LLcontrol := ⟨0, 0, 0, 0⟩

/-- The assertions of `LinkedListNormal`. -/
def linkedListNormal (ll : LLcontrol) (structSize : ℕ) : Exec Unit :=
  if ll.signature1 = llSignature1 ∧ ll.signature2 = llSignature2 ∧ ll.structSize = structSize then .ok ()
  else .error .assertion

def linkedListInit (ll : LLcontrol) (structSize : ℕ) : Exec LLcontrol :=
  if ll.signature1 ≠ llSignature1 ∧ ll.signature2 ≠ llSignature2 then
    .ok ⟨llSignature1, llSignature2, structSize, 0⟩
  else .error .assertion

end LLcontrol

namespace Links

/-- The header of an object. -/
def next (links : Links) (a : ℕ) : Exec ℕ :=
  match links a with
  | none => .error .fault
  | some n => .ok n

/-- The last object from `curr` on. -/
def lastObject (links : Links) : ℕ → ℕ → Exec ℕ
  | 0, _ => .error .halt
  | fuel + 1, curr => do
    let n ← links.next curr
    if n = 0 then .ok curr else links.lastObject fuel n

/-- The object before `target` from `curr` on, or zero. -/
def objectBefore (links : Links) (target : ℕ) : ℕ → ℕ → Exec ℕ
  | 0, _ => .error .halt
  | fuel + 1, curr =>
    if curr = 0 then .ok 0
    else do
      let n ← links.next curr
      if n ≠ 0 ∧ n = target then .ok curr else links.objectBefore target fuel n

/-- An object with an empty header goes behind the last one. -/
def linkLast (links : Links) (fuel : ℕ) (ll : LLcontrol) (target : ℕ) : Exec (Links × LLcontrol) :=
  if ll.firstObject = 0 then .ok (links, { ll with firstObject := target })
  else do
    let curr ← links.lastObject fuel ll.firstObject
    .ok (Function.update links curr (some target), ll)

/-- `malloc` returns `target`. -/
def linkedListAllocate (links : Links) (fuel : ℕ) (ll : LLcontrol) (structSize target : ℕ) :
    Exec (Links × LLcontrol) := do
  ll.linkedListNormal structSize
  let (links, ll) ← linkLast (Function.update links target (some 0)) fuel ll target
  .ok (Function.update links target (some 0), ll)

def linkedListUnregister (links : Links) (fuel : ℕ) (ll : LLcontrol) (structSize target : ℕ) :
    Exec (Links × LLcontrol × Bool) := do
  ll.linkedListNormal structSize
  let curr ← links.objectBefore target fuel ll.firstObject
  if ll.firstObject = target then
    let n ← links.next ll.firstObject
    .ok (links, { ll with firstObject := n }, true)
  else if curr = 0 then .ok (links, ll, false)
  else
    let found ← links.next curr
    let n ← links.next found
    .ok (Function.update links curr (some n), ll, true)

def linkedListRemove (links : Links) (fuel : ℕ) (ll : LLcontrol) (structSize target : ℕ) :
    Exec (Links × LLcontrol × Bool) := do
  ll.linkedListNormal structSize
  let (links, ll, res) ← links.linkedListUnregister fuel ll structSize target
  .ok (Function.update links target none, ll, res)

end Links

/-! ### Lists as paths -/

/-- The signatures and the size are in place, and the objects of the list are `l`. -/
structure LLcontrol.Holds (ll : LLcontrol) (structSize : ℕ) (links : Links) (l : List ℕ) : Prop where
  normal : ll.linkedListNormal structSize = .ok ()
  path : Path links ll.firstObject l 0

namespace Links

variable {links : Links} {ll : LLcontrol} {structSize fuel a p : ℕ} {l l' : List ℕ}

theorem next_eq {n : ℕ} (h : links a = some n) : links.next a = .ok n := by rw [next, h]

theorem ne_zero_of_linked (hnull : links 0 = none) {n : ℕ} (h : links a = some n) : a ≠ 0 := by
  rintro rfl
  rw [hnull] at h
  cases h

theorem lastObject_eq (hnull : links 0 = none) (h : Path links p (l ++ [a]) 0) (hfuel : l.length < fuel) :
    links.lastObject fuel p = .ok a := by
  induction l generalizing p fuel with
  | nil =>
    obtain ⟨rfl, r, hr, rfl⟩ := h
    obtain ⟨fuel, rfl⟩ := Nat.exists_eq_add_of_lt hfuel
    rw [lastObject, next_eq hr, Exec.ok_bind, if_pos rfl]
  | cons b l ih =>
    obtain ⟨rfl, r, hr, h⟩ := h
    obtain ⟨fuel, rfl⟩ : ∃ n, fuel = n + 1 := ⟨fuel - 1, by omega⟩
    have hne : r ≠ 0 := by
      intro hzero
      have := (h.eq_nil_iff hnull).mpr hzero
      simp at this
    rw [lastObject, next_eq hr, Exec.ok_bind, if_neg hne]
    exact ih h (by simpa using hfuel)

theorem objectBefore_eq_zero (hnull : links 0 = none) {target : ℕ} (h : Path links p l 0) (htail : target ∉ l.tail)
    (hfuel : l.length < fuel) : links.objectBefore target fuel p = .ok 0 := by
  induction l generalizing p fuel with
  | nil =>
    obtain ⟨fuel, rfl⟩ := Nat.exists_eq_add_of_lt hfuel
    rw [objectBefore, if_pos (Path.nil_iff.mp h)]
  | cons b l ih =>
    obtain ⟨rfl, r, hr, h⟩ := h
    obtain ⟨fuel, rfl⟩ : ∃ n, fuel = n + 1 := ⟨fuel - 1, by omega⟩
    have hother : ¬(r ≠ 0 ∧ r = target) := by
      rintro ⟨hne, rfl⟩
      cases l with
      | nil => exact hne h
      | cons c l => exact htail (by rw [h.1]; exact List.mem_cons_self)
    rw [objectBefore, if_neg (ne_zero_of_linked hnull hr), next_eq hr, Exec.ok_bind, if_neg hother]
    exact ih h (fun hmem => htail (List.mem_of_mem_tail hmem)) (by simpa using hfuel)

theorem objectBefore_eq (hnull : links 0 = none) {target : ℕ} (h : Path links p (l ++ a :: target :: l') 0)
    (hbefore : target ∉ l ++ [a]) (hfuel : l.length < fuel) : links.objectBefore target fuel p = .ok a := by
  induction l generalizing p fuel with
  | nil =>
    obtain ⟨rfl, r, hr, rfl, n, hn, -⟩ := h
    obtain ⟨fuel, rfl⟩ := Nat.exists_eq_add_of_lt hfuel
    rw [objectBefore, if_neg (ne_zero_of_linked hnull hr), next_eq hr, Exec.ok_bind,
      if_pos ⟨ne_zero_of_linked hnull hn, rfl⟩]
  | cons b l ih =>
    obtain ⟨rfl, r, hr, h⟩ := h
    obtain ⟨fuel, rfl⟩ : ∃ n, fuel = n + 1 := ⟨fuel - 1, by omega⟩
    have hother : ¬(r ≠ 0 ∧ r = target) := by
      rintro ⟨-, rfl⟩
      cases l with
      | nil => exact hbefore (by rw [h.1]; simp)
      | cons c l => exact hbefore (by rw [h.1]; simp)
    rw [objectBefore, if_neg (ne_zero_of_linked hnull hr), next_eq hr, Exec.ok_bind, if_neg hother]
    exact ih h (fun hmem => hbefore (List.mem_cons_of_mem _ hmem)) (by simpa using hfuel)

/-- The object is behind the others, and only their headers changed. -/
theorem linkLast_spec (hnull : links 0 = none) {target : ℕ} (h : ll.Holds structSize links l) (hnodup : l.Nodup)
    (htarget : links target = some 0) (hnew : target ∉ l) (hfuel : l.length ≤ fuel) :
    ∃ links' ll', links.linkLast fuel ll target = .ok (links', ll') ∧
      ll'.Holds structSize links' (l ++ [target]) ∧ ∀ a ∉ l, links' a = links a := by
  rcases List.eq_nil_or_concat l with rfl | ⟨l, b, rfl⟩
  · refine ⟨links, { ll with firstObject := target }, ?_, ⟨h.normal, Path.singleton htarget⟩, fun a _ => rfl⟩
    rw [linkLast, if_pos (Path.nil_iff.mp h.path)]
  · rw [List.concat_eq_append] at h hnodup hnew hfuel ⊢
    have hne : ll.firstObject ≠ 0 := by
      intro hzero
      have := (h.path.eq_nil_iff hnull).mpr hzero
      simp at this
    have hlast : b ∉ l :=
      fun hb => (List.nodup_append.mp hnodup).2.2 b hb b (List.mem_singleton_self b) rfl
    have hfuel : l.length < fuel := by simpa using hfuel
    refine ⟨Function.update links b (some target), ll, ?_, ⟨h.normal, ?_⟩, fun a ha => ?_⟩
    · rw [linkLast, if_neg hne, lastObject_eq hnull h.path hfuel, Exec.ok_bind]
    · refine Path.append_iff.mpr ⟨target, h.path.redirect hlast, Path.singleton ?_⟩
      have hb : target ≠ b := fun heq => hnew (by rw [heq]; simp)
      rw [Function.update_of_ne hb]
      exact htarget
    · have hb : a ≠ b := fun heq => ha (by rw [heq]; simp)
      exact Function.update_of_ne hb _ _

theorem linkedListAllocate_spec (hnull : links 0 = none) {target : ℕ} (h : ll.Holds structSize links l)
    (hnodup : l.Nodup) (hzero : target ≠ 0) (hnew : target ∉ l) (hfuel : l.length ≤ fuel) :
    ∃ links' ll', links.linkedListAllocate fuel ll structSize target = .ok (links', ll') ∧
      ll'.Holds structSize links' (l ++ [target]) ∧ ∀ a ∉ l, a ≠ target → links' a = links a := by
  have hother : ∀ a, a ≠ target → Function.update links target (some 0) a = links a :=
    fun a ha => Function.update_of_ne ha _ _
  have hpath : ll.Holds structSize (Function.update links target (some 0)) l :=
    ⟨h.normal, h.path.congr fun a ha => hother a fun heq => hnew (heq ▸ ha)⟩
  obtain ⟨links', ll', hlink, hholds, hframe⟩ := linkLast_spec (by rw [hother 0 hzero.symm]; exact hnull) hpath hnodup
    (Function.update_self _ _ _) hnew hfuel
  refine ⟨links', ll', ?_, hholds, fun a ha hne => (hframe a ha).trans (hother a hne)⟩
  rw [linkedListAllocate, h.normal, Exec.ok_bind, hlink, Exec.ok_bind]
  have hsame : Function.update links' target (some 0) = links' := by
    rw [← Function.update_self target (some 0) links, ← hframe target hnew, Function.update_eq_self]
  dsimp only
  rw [hsame]

/-- Only the header of the object before it changed. -/
theorem linkedListUnregister_spec (hnull : links 0 = none) {target : ℕ}
    (h : ll.Holds structSize links (l ++ target :: l')) (hnodup : (l ++ target :: l').Nodup)
    (hfuel : (l ++ target :: l').length < fuel) :
    ∃ links' ll', links.linkedListUnregister fuel ll structSize target = .ok (links', ll', true) ∧
      ll'.Holds structSize links' (l ++ l') ∧ ∀ a ∉ l, links' a = links a := by
  rw [linkedListUnregister, h.normal, Exec.ok_bind]
  rcases List.eq_nil_or_concat l with rfl | ⟨l, b, rfl⟩
  · have hfirst : ll.firstObject = target := h.path.1
    obtain ⟨-, n, hn, hrest⟩ := h.path
    rw [objectBefore_eq_zero hnull h.path (List.nodup_cons.mp hnodup).1 hfuel, Exec.ok_bind, if_pos hfirst, hfirst,
      next_eq hn, Exec.ok_bind]
    exact ⟨links, _, rfl, ⟨h.normal, hrest⟩, fun a _ => rfl⟩
  · rw [List.concat_eq_append] at h hnodup hfuel ⊢
    have hpath := h.path
    rw [List.append_assoc, List.singleton_append] at hpath
    obtain ⟨hfront, -, hapart⟩ := List.nodup_append.mp hnodup
    have hbefore : target ∉ l ++ [b] := fun hmem => hapart target hmem target List.mem_cons_self rfl
    have hlast : b ∉ l :=
      fun hb => (List.nodup_append.mp hfront).2.2 b hb b (List.mem_singleton_self b) rfl
    obtain ⟨t, hl, htarget⟩ := Path.append_iff.mp h.path
    obtain ⟨rfl, n, hn, hrest⟩ := htarget
    have hbt : links b = some t := by
      obtain ⟨_, _, rfl, r, hr, rfl⟩ := Path.append_iff.mp hl
      exact hr
    have hfirst : ll.firstObject ≠ t := by
      intro heq
      cases l with
      | nil => exact hbefore (by rw [← heq, h.path.1]; simp)
      | cons c l => exact hbefore (by rw [← heq, h.path.1]; simp)
    have hfuel : l.length < fuel := by
      simp only [List.length_append, List.length_cons] at hfuel
      omega
    rw [objectBefore_eq hnull hpath hbefore hfuel, Exec.ok_bind, if_neg hfirst,
      if_neg (ne_zero_of_linked hnull hbt), next_eq hbt, Exec.ok_bind, next_eq hn, Exec.ok_bind]
    refine ⟨_, ll, rfl, ⟨h.normal, ?_⟩, fun a ha => ?_⟩
    · refine Path.append_iff.mpr ⟨n, hl.redirect hlast, hrest.congr fun a ha => ?_⟩
      have hb : a ≠ b := fun heq => hapart b (by simp) a (List.mem_cons_of_mem _ ha) heq.symm
      exact Function.update_of_ne hb _ _
    · have hb : a ≠ b := fun heq => ha (by rw [heq]; simp)
      exact Function.update_of_ne hb _ _

end Links

end DualFuse.Utility
