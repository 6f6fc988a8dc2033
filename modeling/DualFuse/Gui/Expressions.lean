import DualFuse.Gui.Calculator

/-! One expression in both calculators: typed into the window of `GUI/calculator.cpp`, and given
to the shell's `CALC` as words. The window evaluates an operation when the next operator comes,
and reads its operands from the display; the shell goes over the words. -/

namespace DualFuse.Gui.Calculator

open Library Library.CString Library.Decimal Utility.Numbers
open Utility.Shell (Text Outcome Reports cmdCalc idealCalc bufferSize)

/-- A number of at most nine digits, as it is written. -/
structure Operand where
  digits : Text
  nonempty : digits ≠ []
  all_digits : ∀ c ∈ digits, isDigit c = true
  short : digits.length ≤ 9

abbrev Operator := { c : Key // IsOperator c }

/-- A number, and operations with further numbers. -/
structure Expression where
  first : Operand
  rest : List (Operator × Operand)
  nonempty : rest ≠ []

def Operand.value (n : Operand) : ℤ := valueFrom 0 n.digits

namespace Expression

/-- The keys from an operator on, and the key that asks for the result. -/
def keysFrom (rest : List (Operator × Operand)) : List Key :=
  rest.flatMap (fun p => p.1.val :: p.2.digits) ++ [61]

def keys (e : Expression) : List Key := e.first.digits ++ keysFrom e.rest

def tokensFrom (rest : List (Operator × Operand)) : List Text := rest.flatMap fun p => [[p.1.val], p.2.digits]

def tokens (e : Expression) : List Text := bytes "CALC" :: e.first.digits :: tokensFrom e.rest

/-- Every result is an `int`, up to the first division by zero. -/
def ResultsFit (acc : ℤ) : List (Operator × Operand) → Prop
  | [] => True
  | (op, n) :: rest => ¬(IsDivision op ∧ n.value = 0) →
      InInt (combine op acc n.value) ∧ ResultsFit (combine op acc n.value) rest

def Fits (e : Expression) : Prop := ResultsFit e.first.value e.rest

end Expression

/-- The window shows the number that is printed, or both report an error. -/
def Agrees (s : XPCalculator) (t : Text) : Prop :=
  (s.error = false ∧ ∃ x, Holds s.display (text x) ∧ t = Utility.Shell.println (text x)) ∨
    (s.error = true ∧ Holds s.display errorText ∧ bytes "error" <+: t)

/-! ### Numbers -/

namespace Operand

variable (n : Operand)

theorem valueFrom_lt {r k : ℕ} {s : Text} (hr : r < 10 ^ k) (hs : ∀ c ∈ s, isDigit c = true) :
    valueFrom r s < 10 ^ (k + s.length) := by
  induction s generalizing r k with
  | nil => exact hr
  | cons c s ih =>
    obtain ⟨hc, hs⟩ := List.forall_mem_cons.mp hs
    have hdigit := digitValue_lt hc
    have hnext : 10 * r + digitValue c < 10 ^ (k + 1) := by
      rw [pow_succ]
      omega
    have hvalue := ih hnext hs
    rwa [List.length_cons, ← Nat.add_assoc, Nat.add_right_comm]

theorem value_eq_literal : n.value = literal n.digits := by
  have hhead : n.digits.head? ≠ some minus := by
    intro hminus
    have hdigit := n.all_digits minus (List.mem_of_mem_head? hminus)
    cases hdigit
  rw [literal, if_neg hhead, value, Decimal.value, List.takeWhile_eq_self_iff.mpr n.all_digits]

theorem value_bounds : 0 ≤ n.value ∧ n.value < 1000000000 := by
  have hlt := valueFrom_lt (r := 0) (k := 0) (by decide) n.all_digits
  have hpow : 10 ^ (0 + n.digits.length) ≤ 10 ^ 9 := Nat.pow_le_pow_right (by decide) (by have := n.short; omega)
  unfold value
  omega

theorem readable : Readable n.value := by
  obtain ⟨hlo, hhi⟩ := n.value_bounds
  exact ⟨by omega, by omega⟩

end Operand

/-! ### The window -/

/-- Without a range, the keys lead from `i` to `j`, and every number on the way is taken. -/
def Leads (i : Ideal) (keys : List Key) (j : Ideal) : Prop :=
  Guarded (fun i c => .ok (i.press c)) Ideal.Fits i keys ∧ keys.foldl Ideal.press i = j

section Leads
variable {i j k : Ideal} {keys keys' : List Key}

theorem Leads.nil (i : Ideal) : Leads i [] i := ⟨trivial, rfl⟩

theorem Leads.cons {c : Key} (hfits : i.Fits c) (h : Leads (i.press c) keys j) : Leads i (c :: keys) j := by
  refine ⟨⟨hfits, fun i' hi' => ?_⟩, h.2⟩
  cases hi'
  exact h.1

theorem Leads.trans (h : Leads i keys j) (h' : Leads j keys' k) : Leads i (keys ++ keys') k := by
  induction keys generalizing i with
  | nil =>
    obtain ⟨-, rfl⟩ := h
    exact h'
  | cons c keys ih =>
    obtain ⟨⟨hfits, hrest⟩, hend⟩ := h
    exact .cons hfits (ih ⟨hrest _ rfl, hend⟩)

variable {shown acc : ℤ} {pending : Key} {fresh : Bool}

theorem fits_digit {c : Key} (hc : isDigit c = true) : (Ideal.showing shown acc pending fresh).Fits c :=
  fits_of_other (fun heq => absurd hc (by rw [heq.other.1]; exact Bool.false_ne_true))
    fun hop => absurd hc (by rw [(isOperator_other hop).1]; exact Bool.false_ne_true)

/-- Digits go behind those that are shown, as long as there is room for all of them. -/
theorem leads_digits {r m : ℕ} {s : Text} (hs : ∀ c ∈ s, isDigit c = true) (hr : r < 10 ^ m)
    (hroom : m + s.length ≤ 9) :
    Leads (.showing r acc pending false) s (.showing (valueFrom r s) acc pending false) := by
  induction s generalizing r m with
  | nil => exact .nil _
  | cons c s ih =>
    obtain ⟨hc, hs⟩ := List.forall_mem_cons.mp hs
    rw [List.length_cons] at hroom
    have hdigit := digitValue_lt hc
    have hnext : 10 * r + digitValue c < 10 ^ (m + 1) := by
      rw [pow_succ]
      omega
    have hlt : r < 10 ^ 9 := hr.trans_le (Nat.pow_le_pow_right (by decide) (by omega))
    have hpress : (Ideal.showing r acc pending false).press c =
        .showing (10 * r + digitValue c : ℕ) acc pending false := by
      rw [Ideal.press, if_pos hc, Ideal.typed, if_neg Bool.false_ne_true, if_pos (by omega)]
      push_cast
      rfl
    apply Leads.cons (fits_digit hc)
    rw [hpress]
    exact ih hs hnext (by omega)

/-- A number is typed. -/
theorem leads_operand (n : Operand) :
    Leads (.showing shown acc pending true) n.digits (.showing n.value acc pending false) := by
  obtain ⟨c, s, hdigits⟩ := List.exists_cons_of_ne_nil n.nonempty
  have hall := n.all_digits
  have hshort := n.short
  rw [Operand.value, hdigits]
  rw [hdigits] at hall hshort
  obtain ⟨hc, hs⟩ := List.forall_mem_cons.mp hall
  have hpress : (Ideal.showing shown acc pending true).press c = .showing (digitValue c : ℕ) acc pending false := by
    rw [Ideal.press, if_pos hc, Ideal.typed, if_pos rfl]
  apply Leads.cons (fits_digit hc)
  rw [hpress]
  have hvalue : valueFrom 0 (c :: s) = valueFrom (digitValue c) s := by
    rw [valueFrom, List.foldl_cons, Nat.mul_zero, Nat.zero_add, valueFrom]
  rw [hvalue]
  rw [List.length_cons] at hshort
  exact leads_digits (m := 1) hs (digitValue_lt hc) (by omega)

/-- After an error the keys that do not clear do nothing. -/
theorem leads_error (h : ∀ c ∈ keys, ¬IsClear c) : Leads .error keys .error := by
  induction keys with
  | nil => exact .nil _
  | cons c keys ih =>
    obtain ⟨hc, hkeys⟩ := List.forall_mem_cons.mp h
    refine .cons trivial ?_
    rw [Ideal.press, if_neg hc]
    exact ih hkeys

end Leads

section Chain

variable {acc : ℤ}

theorem not_clear_of_keys (rest : List (Operator × Operand)) : ∀ c ∈ Expression.keysFrom rest, ¬IsClear c := by
  intro c hc hclear
  rcases List.mem_append.mp hc with hc | hc
  · obtain ⟨⟨op, n⟩, -, hc⟩ := List.mem_flatMap.mp hc
    rcases List.mem_cons.mp hc with rfl | hc
    · exact (isOperator_other op.2).2.1 hclear
    · exact absurd (n.all_digits c hc) (by rw [hclear.not_digit]; exact Bool.false_ne_true)
  · rw [List.mem_singleton.mp hc] at hclear
    exact absurd hclear (by decide)

theorem operator_ne_zero (op : Operator) : op.val ≠ 0 := by
  obtain ⟨op, hop⟩ := op
  rintro rfl
  exact absurd hop (by decide)

/-- A quotient of an `int` by a positive number is one. -/
theorem tdiv_inInt {b : ℤ} (hacc : InInt acc) (hb : 0 < b) : InInt (acc.tdiv b) := by
  have habs : (acc.tdiv b).natAbs ≤ acc.natAbs := by
    rw [Int.natAbs_tdiv]
    exact Nat.div_le_self _ _
  obtain ⟨hlo, hhi⟩ := hacc
  rcases le_total 0 acc with hpos | hneg
  · constructor <;> omega
  · have hquotient : acc.tdiv b = -((-acc).tdiv b) := by rw [Int.neg_tdiv, neg_neg]
    have hnonneg := Int.tdiv_nonneg (neg_nonneg.mpr hneg) hb.le
    constructor <;> omega

/-- The operation is defined, and it has its value unless it divides by zero. -/
theorem defined_of_fits {op : Operator} {n : Operand} {rest : List (Operator × Operand)} (hacc : InInt acc)
    (hfits : Expression.ResultsFit acc ((op, n) :: rest)) : Defined op acc n.value := by
  refine ⟨n.readable, or_iff_not_imp_left.mpr fun hzero => ?_⟩
  unfold reach
  split_ifs with hpercent
  · have hne : n.value ≠ 0 := fun heq => hzero ⟨.inr hpercent, heq⟩
    exact tdiv_inInt hacc (lt_of_le_of_ne n.value_bounds.1 hne.symm)
  · exact (hfits hzero).1

theorem evaluate_of_fits {op : Operator} {n : Operand} {rest : List (Operator × Operand)} (hacc : InInt acc)
    (hfits : Expression.ResultsFit acc ((op, n) :: rest)) : evaluate op acc n.value =
      if IsDivision op ∧ n.value = 0 then none else some (combine op acc n.value) := by
  have hdefined := defined_of_fits hacc hfits
  rw [evaluate]
  split_ifs with hzero hrange
  · rfl
  · rfl
  · exact absurd ⟨hdefined.1.inInt, hdefined.2.resolve_left hzero⟩ hrange

/-- What the window comes to. -/
def outcome : Outcome → Ideal
  | .value x => .showing x x 0 true
  | _ => .error

theorem chain_cons (op : Operator) (n : Operand) (rest : List (Operator × Operand)) :
    Utility.Shell.chain acc (Expression.tokensFrom ((op, n) :: rest)) =
      match evaluate op acc n.value with
      | none => .error
      | some r => Utility.Shell.chain r (Expression.tokensFrom rest) := by
  change Utility.Shell.chain acc ([op.val] :: n.digits :: Expression.tokensFrom rest) = _
  rewrite [Utility.Shell.chain, List.headD_cons, if_pos op.2, n.value_eq_literal]
  cases evaluate op acc (literal n.digits) with
  | none => rfl
  | some r => rfl

theorem chainFits_of_fits {rest : List (Operator × Operand)} (hacc : InInt acc)
    (hfits : Expression.ResultsFit acc rest) : Utility.Shell.ChainFits acc (Expression.tokensFrom rest) := by
  induction rest generalizing acc with
  | nil => trivial
  | cons p rest ih =>
    obtain ⟨op, n⟩ := p
    have hdefined := defined_of_fits hacc hfits
    have hevaluate := evaluate_of_fits hacc hfits
    change Utility.Shell.ChainFits acc ([op.val] :: n.digits :: Expression.tokensFrom rest)
    rw [Utility.Shell.ChainFits, List.headD_cons, ← n.value_eq_literal]
    refine ⟨n.readable, fun _ => ⟨hdefined, fun r hr => ?_⟩⟩
    rw [hevaluate] at hr
    split_ifs at hr with hzero
    obtain rfl := Option.some.inj hr
    exact ih (hfits hzero).1 (hfits hzero).2

theorem leads_equals {shown : ℤ} (op : Operator) (hdefined : Defined op acc shown) :
    Leads (.showing shown acc op false) [61] (.settle 0 (evaluate op acc shown)) := by
  have hpress : (Ideal.showing shown acc op false).press 61 = .settle 0 (evaluate op acc shown) :=
    if_pos (operator_ne_zero op)
  refine .cons ((fits_equals (.inl rfl)).mpr fun _ => hdefined) ?_
  rw [hpress]
  exact .nil _

theorem leads_operator {shown : ℤ} (op op' : Operator) (hdefined : Defined op acc shown) :
    Leads (.showing shown acc op false) [op'.val] (.settle op' (evaluate op acc shown)) := by
  obtain ⟨hdigit, hclear, hequals⟩ := isOperator_other op'.2
  have hchain : op.val ≠ 0 ∧ ¬(false = true) := ⟨operator_ne_zero op, Bool.false_ne_true⟩
  have hpress : (Ideal.showing shown acc op false).press op' = .settle op' (evaluate op acc shown) := by
    rw [Ideal.press, if_neg (by rw [hdigit]; exact Bool.false_ne_true), if_neg hclear, if_neg hequals, if_pos op'.2,
      if_pos hchain]
  refine .cons ((fits_operator op'.2).mpr ?_) ?_
  · rw [if_pos hchain]
    exact hdefined
  · rw [hpress]
    exact .nil _

theorem keysFrom_cons (op : Operator) (n : Operand) (rest : List (Operator × Operand)) :
    Expression.keysFrom ((op, n) :: rest) = [op.val] ++ (n.digits ++ Expression.keysFrom rest) := by
  simp [Expression.keysFrom]

/-- With an operation pending and its operand on the display, the window comes to what the chain
comes to. -/
theorem leads_from (hacc : InInt acc) (op : Operator) (n : Operand) (rest : List (Operator × Operand))
    (hfits : Expression.ResultsFit acc ((op, n) :: rest)) :
    Leads (.showing n.value acc op false) (Expression.keysFrom rest)
      (outcome (Utility.Shell.chain acc (Expression.tokensFrom ((op, n) :: rest)))) := by
  induction rest generalizing acc op n with
  | nil =>
    have hlead := leads_equals op (defined_of_fits hacc hfits)
    rw [chain_cons]
    cases hr : evaluate op acc n.value with
    | none => rwa [hr] at hlead
    | some r => rwa [hr] at hlead
  | cons p rest ih =>
    obtain ⟨op', n'⟩ := p
    have hlead := leads_operator op op' (defined_of_fits hacc hfits)
    have hevaluate := evaluate_of_fits hacc hfits
    rw [chain_cons, keysFrom_cons]
    cases hr : evaluate op acc n.value with
    | none =>
      rw [hr] at hlead
      refine hlead.trans (leads_error fun c hc => ?_)
      exact not_clear_of_keys ((op', n') :: rest) c (keysFrom_cons op' n' rest ▸ List.mem_append_right _ hc)
    | some r =>
      rw [hr] at hlead hevaluate
      split_ifs at hevaluate with hzero
      obtain rfl := Option.some.inj hevaluate
      obtain ⟨hr, hrest⟩ := hfits hzero
      exact hlead.trans ((leads_operand n').trans (ih hr op' n' hrest))

/-- The whole expression. -/
theorem leads_expression (e : Expression) (hfits : e.Fits) :
    Leads .start e.keys (outcome (Utility.Shell.chain e.first.value (Expression.tokensFrom e.rest))) := by
  obtain ⟨⟨op, n⟩, rest, hrest⟩ := List.exists_cons_of_ne_nil e.nonempty
  have hread := e.first.readable
  obtain ⟨hdigit, hclear, hequals⟩ := isOperator_other op.2
  have hpress : (Ideal.showing e.first.value 0 0 false).press op =
      .showing e.first.value e.first.value op true := by
    rw [Ideal.press, if_neg (by rw [hdigit]; exact Bool.false_ne_true), if_neg hclear, if_neg hequals, if_pos op.2,
      if_neg (fun h => h.1 rfl), if_pos hread.inInt, Ideal.settle]
  have hfirst : Leads (.showing e.first.value 0 0 false) [op.val] (.showing e.first.value e.first.value op true) := by
    refine .cons ((fits_operator op.2).mpr ?_) ?_
    · rw [if_neg (fun h => h.1 rfl)]
      exact hread
    · rw [hpress]
      exact .nil _
  rw [Expression.Fits, hrest] at hfits
  rw [Expression.keys, hrest, keysFrom_cons]
  have hchain := leads_from hread.inInt op n rest hfits
  exact (leads_operand e.first).trans (hfirst.trans ((leads_operand n).trans hchain))

end Chain

/-! ### Both calculators -/

theorem run_of_leads {s : XPCalculator} {keys : List Key} {j : Ideal} (hs : Shows s .start)
    (h : Leads .start keys j) : ∃ s', run calcInput s keys = .ok s' ∧ Shows s' j := by
  have hfollow : ∀ s i c, Shows s i → i.Fits c → ∃ s', calcInput s c = .ok s' ∧ Shows s' (i.press c) :=
    fun s i c h => (Shows.follows h c).1
  have hstop : ∀ s i c, Shows s i → ¬ i.Fits c → ∃ e, calcInput s c = .error e :=
    fun s i c h => (Shows.follows h c).2
  rw [← h.2]
  exact (run_follows_iff hfollow hstop hs).mpr h.1

theorem length_tokensFrom (rest : List (Operator × Operand)) :
    (Expression.tokensFrom rest).length = 2 * rest.length := by
  induction rest with
  | nil => rfl
  | cons p rest ih =>
    change (Expression.tokensFrom rest).length + 2 = 2 * (rest.length + 1)
    omega

theorem calc_of_expression (memory : Fin bufferSize → BitVec 8) (e : Expression) (hfits : e.Fits) :
    ∃ t, cmdCalc memory e.tokens = .ok t ∧
      Reports t (Utility.Shell.chain e.first.value (Expression.tokensFrom e.rest)) := by
  have hread := e.first.readable
  have hlength : e.tokens.length = 2 * e.rest.length + 2 := by
    rw [Expression.tokens, List.length_cons, List.length_cons, length_tokensFrom]
  have hpos := List.length_pos_iff.mpr e.nonempty
  have hideal : idealCalc e.tokens = Utility.Shell.chain e.first.value (Expression.tokensFrom e.rest) := by
    rw [idealCalc, if_neg (by omega)]
    change (if InInt (literal e.first.digits) then
      Utility.Shell.chain (literal e.first.digits) (Expression.tokensFrom e.rest) else .error) = _
    rw [← e.first.value_eq_literal, if_pos hread.inInt]
  rw [← hideal]
  refine (Utility.Shell.tokensRight_iff memory e.tokens).mpr fun _ _ => ?_
  change Readable (literal e.first.digits) ∧
    Utility.Shell.ChainFits (literal e.first.digits) (Expression.tokensFrom e.rest)
  rw [← e.first.value_eq_literal]
  exact ⟨hread, chainFits_of_fits hread.inInt hfits⟩

theorem chain_ne_usage (acc : ℤ) (l : List Text) : Utility.Shell.chain acc l ≠ .usage := by
  induction acc, l using Utility.Shell.chain.induct with
  | case1 acc op num rest hop hnone =>
    rw [Utility.Shell.chain, if_pos hop, hnone]
    exact fun h => by cases h
  | case2 acc op num rest hop r hsome ih =>
    rw [Utility.Shell.chain, if_pos hop, hsome]
    exact ih
  | case3 acc op num rest hop =>
    rw [Utility.Shell.chain, if_neg hop]
    exact fun h => by cases h
  | case4 l acc hshort =>
    rw [Utility.Shell.chain]
    · exact fun h => by cases h
    · exact hshort

/-- The window shows the result of an expression that `CALC` prints, and an error where `CALC`
reports one. -/
theorem calculators_agree {s₀ : XPCalculator} (hsize : s₀.display.length = displaySize)
    (memory : Fin bufferSize → BitVec 8) (e : Expression) (hfits : e.Fits) :
    ∃ s s' t, calcReset s₀ = .ok s ∧ run calcInput s e.keys = .ok s' ∧ cmdCalc memory e.tokens = .ok t ∧
      Agrees s' t := by
  obtain ⟨s, hreset, hs⟩ := reset_shows hsize
  obtain ⟨s', hrun, hs'⟩ := run_of_leads hs (leads_expression e hfits)
  obtain ⟨t, hcalc, ht⟩ := calc_of_expression memory e hfits
  refine ⟨s, s', t, hreset, hrun, hcalc, ?_⟩
  cases hchain : Utility.Shell.chain e.first.value (Expression.tokensFrom e.rest) with
  | usage => exact absurd hchain (chain_ne_usage _ _)
  | value x =>
    rw [hchain] at hs' ht
    exact .inl ⟨hs'.error, x, hs'.display, ht⟩
  | error =>
    rw [hchain] at hs' ht
    exact .inr ⟨hs'.1, hs'.2.1, ht⟩

/-- `12 - 5 / 0`. -/
def dividedByZero : Expression where
  first := ⟨bytes "12", by decide, by decide, by decide⟩
  rest := [(⟨minus, by decide⟩, ⟨bytes "5", by decide, by decide, by decide⟩),
    (⟨slash, by decide⟩, ⟨bytes "0", by decide, by decide, by decide⟩)]
  nonempty := by decide

theorem divided_by_zero_agree : ∃ s s' t,
    calcReset ⟨List.replicate displaySize 0, 0, 0, true, false⟩ = .ok s ∧
      run calcInput s dividedByZero.keys = .ok s' ∧ cmdCalc (fun _ => 0) dividedByZero.tokens = .ok t ∧ Agrees s' t :=
  calculators_agree rfl _ dividedByZero fun _ => ⟨by decide, fun hzero => absurd ⟨.inl rfl, by decide⟩ hzero⟩

end DualFuse.Gui.Calculator
