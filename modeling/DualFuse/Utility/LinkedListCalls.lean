import DualFuse.Utility.LinkedList

/-! The operations on one linked list (`utility/linked_list.cpp`) beside the others. A call
that searches for an object finds the first one; a call that removes an object frees it even
where the list does not have it, and then another list may still have it. -/

namespace DualFuse.Utility

open Library

namespace Links

def linkedListPushFrontUnsafe (links : Links) (ll : LLcontrol) (target : ℕ) : Exec (Links × LLcontrol) := do
  let n ← links.next target
  if ll.firstObject = 0 then
    if n = 0 then .ok (links, { ll with firstObject := target }) else .error .assertion
  else .ok (Function.update links target (some ll.firstObject), { ll with firstObject := target })

/-- The callback with its context is `isCorrect`. -/
def linkedListSearch (links : Links) (isCorrect : ℕ → Bool) : ℕ → ℕ → Exec ℕ
  | 0, _ => .error .halt
  | fuel + 1, browse =>
    if browse = 0 then .ok 0
    else if isCorrect browse then .ok browse
    else do
      let n ← links.next browse
      links.linkedListSearch isCorrect fuel n

end Links

/-- `sizeof(LLheader)`. -/
def llHeaderSize : ℕ := 8

/-- The objects: their headers, and the bytes behind them. -/
structure LLnodes where
  links : Links
  rest : ℕ → List (BitVec 8)

/-- The `memset` of the new object. -/
def LLnodes.linkedListAllocate (nodes : LLnodes) (fuel : ℕ) (ll : LLcontrol) (structSize target : ℕ) :
    Exec (LLnodes × LLcontrol) := do
  let (links, ll) ← nodes.links.linkedListAllocate fuel ll structSize target
  .ok (⟨links, Function.update nodes.rest target (List.replicate (structSize - llHeaderSize) 0)⟩, ll)

inductive LLcall where
  | linkedListAllocate (target : ℕ)
  | linkedListPushFrontUnsafe (target : ℕ)
  | linkedListUnregister (target : ℕ)
  | linkedListSearch (isCorrect : ℕ → Bool)
  | linkedListRemove (target : ℕ)

/-- A list that another control holds. -/
structure LLother where
  ll : LLcontrol
  structSize : ℕ
  nodes : List ℕ

def LLother.Held (links : Links) (o : LLother) : Prop := o.ll.Holds o.structSize links o.nodes

namespace LLcall

section Promise
variable (nodes : LLnodes) (fuel : ℕ) (ll : LLcontrol) (structSize : ℕ) (l : List ℕ) (others : List LLother)

/-- `malloc` returns memory that no object has; a node that is pushed is in memory and not in the list. -/
def Valid : LLcall → Prop
  | .linkedListAllocate target => target ≠ 0 ∧ nodes.links target = none
  | .linkedListPushFrontUnsafe target => nodes.links target ≠ none ∧ target ∉ l
  | _ => True

/-- What a call does to the list `l`. -/
def Right : LLcall → Prop
  | .linkedListAllocate target => ∃ nodes' ll',
      nodes.linkedListAllocate fuel ll structSize target = .ok (nodes', ll') ∧
        ll'.Holds structSize nodes'.links (l ++ [target]) ∧ nodes'.links target = some 0 ∧
          nodes'.rest target = List.replicate (structSize - llHeaderSize) 0
  | .linkedListPushFrontUnsafe target => ∃ links' ll',
      nodes.links.linkedListPushFrontUnsafe ll target = .ok (links', ll') ∧ ll'.Holds structSize links' (target :: l)
  | .linkedListUnregister target => ∃ links' ll',
      nodes.links.linkedListUnregister fuel ll structSize target = .ok (links', ll', decide (target ∈ l)) ∧
        ll'.Holds structSize links' (l.erase target) ∧ (target ∉ l → links' = nodes.links ∧ ll' = ll)
  | .linkedListSearch isCorrect =>
      nodes.links.linkedListSearch isCorrect fuel ll.firstObject = .ok ((l.find? isCorrect).getD 0)
  | .linkedListRemove target => ∃ links' ll',
      nodes.links.linkedListRemove fuel ll structSize target = .ok (links', ll', decide (target ∈ l)) ∧
        ll'.Holds structSize links' (l.erase target) ∧ ∀ o ∈ others, o.Held links'

/-- A node that is pushed onto an empty list leads nowhere, null is not taken out of an empty list,
and what is removed is in the list or in no other. -/
def Fits : LLcall → Prop
  | .linkedListPushFrontUnsafe target => l = [] → nodes.links target = some 0
  | .linkedListUnregister target => target = 0 → l ≠ []
  | .linkedListRemove target => (target = 0 → l ≠ []) ∧ (target ∈ l ∨ ∀ o ∈ others, target ∉ o.nodes)
  | _ => True

end Promise

end LLcall

namespace Links

variable {links : Links} {ll : LLcontrol} {structSize fuel p target : ℕ} {l : List ℕ} {isCorrect : ℕ → Bool}

theorem linkedListSearch_eq (hnull : links 0 = none) (h : Path links p l 0) (hfuel : l.length < fuel) :
    links.linkedListSearch isCorrect fuel p = .ok ((l.find? isCorrect).getD 0) := by
  induction l generalizing p fuel with
  | nil =>
    obtain ⟨fuel, rfl⟩ := Nat.exists_eq_add_of_lt hfuel
    rw [linkedListSearch, if_pos (Path.nil_iff.mp h)]
    rfl
  | cons a l ih =>
    obtain ⟨rfl, r, hr, h⟩ := h
    obtain ⟨fuel, rfl⟩ : ∃ n, fuel = n + 1 := ⟨fuel - 1, by omega⟩
    rw [linkedListSearch, if_neg (ne_zero_of_linked hnull hr)]
    by_cases hfound : isCorrect p = true
    · rw [if_pos hfound, List.find?_cons_of_pos hfound]
      rfl
    · rw [if_neg hfound, List.find?_cons_of_neg hfound, next_eq hr, Exec.ok_bind]
      exact ih h (by simpa using hfuel)

theorem first_eq (h : ll.Holds structSize links l) : ll.firstObject = l.headD 0 := h.path.eq_headD

theorem linkedListPushFrontUnsafe_right_iff (hnull : links 0 = none) (h : ll.Holds structSize links l)
    (hnode : links target ≠ none) (hnew : target ∉ l) :
    (∃ links' ll', links.linkedListPushFrontUnsafe ll target = .ok (links', ll') ∧
      ll'.Holds structSize links' (target :: l)) ↔ (l = [] → links target = some 0) := by
  obtain ⟨n, hn⟩ := Option.ne_none_iff_exists'.mp hnode
  have hempty : l = [] ↔ ll.firstObject = 0 := h.path.eq_nil_iff hnull
  rw [linkedListPushFrontUnsafe, next_eq hn, Exec.ok_bind, hempty, hn, Option.some_inj]
  split_ifs with hfirst hzero
  · subst hzero
    obtain rfl := hempty.mpr hfirst
    exact iff_of_true ⟨links, _, rfl, h.normal, Path.singleton hn⟩ fun _ => rfl
  · refine iff_of_false ?_ fun hfits => hzero (hfits hfirst)
    rintro ⟨links', ll', herr, -⟩
    cases herr
  · refine iff_of_true ⟨_, _, rfl, h.normal, rfl, _, Function.update_self _ _ _, ?_⟩ fun heq => absurd heq hfirst
    apply h.path.congr
    rintro a ha
    rw [Function.update_of_ne]
    rintro rfl
    exact hnew ha

/-- Without the object the list stays as it is. -/
theorem linkedListUnregister_miss (hnull : links 0 = none) (h : ll.Holds structSize links l) (hmiss : target ∉ l)
    (hfits : target = 0 → l ≠ []) (hfuel : l.length < fuel) :
    links.linkedListUnregister fuel ll structSize target = .ok (links, ll, false) := by
  have hfirst : ll.firstObject ≠ target := by
    rintro rfl
    have hhead := h.path.eq_headD
    cases l with
    | nil => exact hfits hhead rfl
    | cons a l => exact hmiss (by rw [hhead]; exact List.mem_cons_self)
  rw [linkedListUnregister, h.normal, Exec.ok_bind,
    objectBefore_eq_zero hnull h.path (fun hmem => hmiss (List.mem_of_mem_tail hmem)) hfuel, Exec.ok_bind,
    if_neg hfirst, if_pos rfl]

theorem linkedListUnregister_null (hnull : links 0 = none) (h : ll.Holds structSize links [])
    (hfuel : 0 < fuel) : links.linkedListUnregister fuel ll structSize 0 = .error .fault := by
  have hfirst : ll.firstObject = 0 := h.path
  rw [linkedListUnregister, h.normal, Exec.ok_bind, objectBefore_eq_zero hnull h.path (by simp) hfuel, Exec.ok_bind,
    if_pos hfirst, hfirst, next, hnull]
  rfl

/-- The object is taken out of the list, which does not change without it. -/
theorem linkedListUnregister_right (hnull : links 0 = none) (h : ll.Holds structSize links l) (hnodup : l.Nodup)
    (hfits : target = 0 → l ≠ []) (hfuel : l.length < fuel) : ∃ links' ll',
      links.linkedListUnregister fuel ll structSize target = .ok (links', ll', decide (target ∈ l)) ∧
        ll'.Holds structSize links' (l.erase target) ∧ (target ∉ l → links' = links ∧ ll' = ll) ∧
          ∀ a ∉ l, links' a = links a := by
  by_cases hmem : target ∈ l
  · obtain ⟨before, after, rfl⟩ := List.append_of_mem hmem
    have hbefore : target ∉ before := by
      simp only [List.nodup_append, List.mem_cons] at hnodup
      exact fun hb => hnodup.2.2 target hb target (.inl rfl) rfl
    obtain ⟨links', ll', hcall, hholds, hframe⟩ := linkedListUnregister_spec hnull h hnodup hfuel
    rw [List.erase_append_right _ hbefore, List.erase_cons_head, decide_eq_true hmem]
    exact ⟨links', ll', hcall, hholds, fun hmiss => absurd hmem hmiss,
      fun a ha => hframe a fun hb => ha (List.mem_append_left _ hb)⟩
  · rw [List.erase_of_not_mem hmem, decide_eq_false hmem]
    exact ⟨links, ll, linkedListUnregister_miss hnull h hmem hfits hfuel, h, fun _ => ⟨rfl, rfl⟩, fun _ _ => rfl⟩

/-- What is freed leaves the paths that avoid it. -/
theorem path_free {q : ℕ} (h : Path links p l q) (hnot : target ∉ l) :
    Path (Function.update links target none) p l q := by
  apply h.congr
  intro a ha
  rw [Function.update_of_ne]
  rintro rfl
  exact hnot ha

theorem linkedListRemove_right_iff {others : List LLother} (hnull : links 0 = none) (h : ll.Holds structSize links l)
    (hnodup : l.Nodup) (hothers : ∀ o ∈ others, o.Held links ∧ l.Disjoint o.nodes) (hfuel : l.length < fuel) :
    (∃ links' ll', links.linkedListRemove fuel ll structSize target = .ok (links', ll', decide (target ∈ l)) ∧
      ll'.Holds structSize links' (l.erase target) ∧ ∀ o ∈ others, o.Held links') ↔
      (target = 0 → l ≠ []) ∧ (target ∈ l ∨ ∀ o ∈ others, target ∉ o.nodes) := by
  rw [linkedListRemove, h.normal, Exec.ok_bind]
  by_cases hfits : target = 0 → l ≠ []
  · obtain ⟨links', ll', hcall, hholds, hmiss, hframe⟩ := linkedListUnregister_right hnull h hnodup hfits hfuel
    rw [hcall, Exec.ok_bind]
    have hleft : ll'.Holds structSize (Function.update links' target none) (l.erase target) :=
      ⟨hholds.normal, path_free hholds.path hnodup.not_mem_erase⟩
    constructor
    · rintro ⟨_, _, heq, -, hheld⟩
      obtain ⟨rfl, -⟩ := Prod.ext_iff.mp (Except.ok.inj heq)
      refine ⟨hfits, or_iff_not_imp_left.mpr fun hmem o ho hin => ?_⟩
      obtain ⟨r, hr⟩ := (hheld o ho).path.linked hin
      cases (Function.update_self target none links').symm.trans hr
    · rintro ⟨-, hapart⟩
      refine ⟨_, _, rfl, hleft, fun o ho => ⟨(hothers o ho).1.normal, path_free ?_ ?_⟩⟩
      · apply (hothers o ho).1.path.congr
        exact fun a ha => hframe a fun hal => (hothers o ho).2 hal ha
      · rcases hapart with hmem | hnone
        · exact (hothers o ho).2 hmem
        · exact hnone o ho
  · obtain ⟨rfl, hnil⟩ := Classical.not_imp.mp hfits
    obtain rfl := not_not.mp hnil
    rw [linkedListUnregister_null hnull h (by simpa using hfuel)]
    refine iff_of_false ?_ fun hright => hfits hright.1
    rintro ⟨links', ll', herr, -⟩
    cases herr

end Links

namespace LLcall

variable {nodes : LLnodes} {fuel : ℕ} {ll : LLcontrol} {structSize : ℕ} {l : List ℕ} {others : List LLother}

theorem right_iff_fits {c : LLcall} (hnull : nodes.links 0 = none) (h : ll.Holds structSize nodes.links l)
    (hnodup : l.Nodup) (hothers : ∀ o ∈ others, o.Held nodes.links ∧ l.Disjoint o.nodes) (hfuel : l.length < fuel)
    (hvalid : c.Valid nodes l) :
    c.Right nodes fuel ll structSize l others ↔ c.Fits nodes l others := by
  cases c with
  | linkedListAllocate target =>
    obtain ⟨hzero, hnew⟩ := hvalid
    have hfresh : target ∉ l := by
      intro hmem
      obtain ⟨r, hr⟩ := h.path.linked hmem
      rw [hnew] at hr
      cases hr
    obtain ⟨links', ll', hcall, hholds, -⟩ := Links.linkedListAllocate_spec hnull h hnodup hzero hfresh hfuel.le
    let rest := Function.update nodes.rest target (List.replicate (structSize - llHeaderSize) 0)
    refine iff_of_true ⟨⟨links', rest⟩, ll', ?_, hholds, ?_, Function.update_self _ _ _⟩ trivial
    · rw [LLnodes.linkedListAllocate, hcall, Exec.ok_bind]
    · obtain ⟨_, -, rfl, r, hr, rfl⟩ := Path.append_iff.mp hholds.path
      exact hr
  | linkedListPushFrontUnsafe target => exact Links.linkedListPushFrontUnsafe_right_iff hnull h hvalid.1 hvalid.2
  | linkedListUnregister target =>
    by_cases hfits : target = 0 → l ≠ []
    · obtain ⟨links', ll', hcall, hholds, hmiss, -⟩ := Links.linkedListUnregister_right hnull h hnodup hfits hfuel
      exact iff_of_true ⟨links', ll', hcall, hholds, hmiss⟩ hfits
    · refine iff_of_false ?_ hfits
      obtain ⟨rfl, hnil⟩ := Classical.not_imp.mp hfits
      obtain rfl := not_not.mp hnil
      rintro ⟨links', ll', hcall, -⟩
      rw [Links.linkedListUnregister_null hnull h (by simpa using hfuel)] at hcall
      cases hcall
  | linkedListSearch isCorrect => exact iff_of_true (Links.linkedListSearch_eq hnull h.path hfuel) trivial
  | linkedListRemove target => exact Links.linkedListRemove_right_iff hnull h hnodup hothers hfuel

/-- Every operation does to the list of its nodes what its name says, and harms no other list,
exactly when what is pushed onto an empty list leads nowhere, null is not taken out of an empty
list, and what is removed is in the list or in no other. -/
theorem operations_right_iff {c : LLcall} (hnull : nodes.links 0 = none) (h : ll.Holds structSize nodes.links l)
    (hnodup : l.Nodup) (hothers : ∀ o ∈ others, o.Held nodes.links ∧ l.Disjoint o.nodes) (hfuel : l.length < fuel)
    (hvalid : c.Valid nodes l) : c.Right nodes fuel ll structSize l others ↔ c.Fits nodes l others :=
  right_iff_fits hnull h hnodup hothers hfuel hvalid

/-- Two objects, each the only one of its list. -/
def twoNodes : LLnodes := ⟨fun a => if a = 4096 ∨ a = 8192 then some 0 else none, fun _ => []⟩

def oneNode (a : ℕ) : LLcontrol := ⟨llSignature1, llSignature2, 8, a⟩

theorem oneNode_holds {a : ℕ} (ha : a = 4096 ∨ a = 8192) : (oneNode a).Holds 8 twoNodes.links [a] :=
  ⟨rfl, Path.singleton (if_pos ha)⟩

theorem others_held : ∀ o ∈ [(⟨oneNode 8192, 8, [8192]⟩ : LLother)],
    o.Held twoNodes.links ∧ List.Disjoint [4096] o.nodes := by
  intro o ho
  obtain rfl := List.mem_singleton.mp ho
  exact ⟨oneNode_holds (.inr rfl), by simp⟩

theorem remove_first_right :
    (linkedListRemove 4096).Right twoNodes 2 (oneNode 4096) 8 [4096] [⟨oneNode 8192, 8, [8192]⟩] ↔
      (linkedListRemove 4096).Fits twoNodes [4096] [⟨oneNode 8192, 8, [8192]⟩] :=
  operations_right_iff (by decide) (oneNode_holds (.inl rfl)) (by decide) others_held (by decide) trivial

/-- The object of the other list is freed. -/
theorem remove_frees_other :
    ¬(linkedListRemove 8192).Right twoNodes 2 (oneNode 4096) 8 [4096] [⟨oneNode 8192, 8, [8192]⟩] := by
  intro hright
  obtain ⟨-, hmem | hnone⟩ := (right_iff_fits (c := linkedListRemove 8192) (by decide) (oneNode_holds (.inl rfl))
    (by decide) others_held (by decide) trivial).mp hright
  · simp at hmem
  · exact hnone _ List.mem_cons_self List.mem_cons_self

end LLcall

end DualFuse.Utility
