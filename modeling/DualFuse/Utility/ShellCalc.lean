import DualFuse.Utility.Numbers

/-! The shell's `CALC` (`utility/shell.cpp`): a chain of operations from left to right, on numbers
that are given as words. -/

namespace DualFuse.Utility.Shell

open Library Library.CString Library.Decimal Numbers

abbrev Text := List (BitVec 8)

def bufferSize : ℕ := 32

def println (t : Text) : Text := t ++ [10]

def usage : Text :=
  println (bytes "Usage: CALC <num> <op> <num> [<op> <num> ...]") ++ println (bytes "  ops: + - * / %")

def divisionByZero : Text := println (bytes "error: division by zero")

def moduloByZero : Text := println (bytes "error: modulo by zero")

def unknownOperator (c : BitVec 8) : Text := bytes "error: unknown operator '" ++ c :: println (bytes "'")

/-- The switch over the operator: the text it ends with, or the new result. -/
def accumulate (c : BitVec 8) (accumulated b : ℤ) : Exec (Text ⊕ ℤ) :=
  if c = plus then Sum.inr <$> int (accumulated + b)
  else if c = minus then Sum.inr <$> int (accumulated - b)
  else if c = times then Sum.inr <$> int (accumulated * b)
  else if c = slash then
    if b = 0 then .ok (.inl divisionByZero) else Sum.inr <$> int (accumulated.tdiv b)
  else if c = percent then
    if b = 0 then .ok (.inl moduloByZero)
    else do
      let _ ← int (accumulated.tdiv b)
      .ok (.inr (accumulated.tmod b))
  else .ok (.inl (unknownOperator c))

/-- `u64toa` writes into an array of 32 bytes that hold anything. -/
def printResult (memory : Fin bufferSize → BitVec 8) (accumulated : ℤ) : Exec Text :=
  if accumulated < 0 then do
    let buf ← u64toa (-accumulated).toNat (List.ofFn memory) 10
    let str ← stringAt buf
    .ok (bytes "-" ++ println str)
  else do
    let buf ← u64toa accumulated.toNat (List.ofFn memory) 10
    let str ← stringAt buf
    .ok (println str)

def calcLoop (memory : Fin bufferSize → BitVec 8) (accumulated : ℤ) : List Text → Exec Text
  | op :: num :: rest => do
    let b ← atoi num
    match ← accumulate (op.headD 0) accumulated b with
    | .inl t => .ok t
    | .inr accumulated => calcLoop memory accumulated rest
  | _ => printResult memory accumulated

def cmdCalc (memory : Fin bufferSize → BitVec 8) (argv : List Text) : Exec Text :=
  if argv.length < 4 ∨ argv.length % 2 ≠ 0 then .ok usage
  else do
    let accumulated ← atoi (argv.getD 1 [])
    calcLoop memory accumulated (argv.drop 2)

/-! ### The command as it should be -/

inductive Outcome where
  | usage
  | value (x : ℤ)
  | error

/-- The chain on integers without a range. -/
def chain (acc : ℤ) : List Text → Outcome
  | op :: num :: rest =>
    if IsOperator (op.headD 0) then
      match evaluate (op.headD 0) acc (literal num) with
      | none => .error
      | some r => chain r rest
    else .error
  | _ => .value acc

def idealCalc (argv : List Text) : Outcome :=
  if argv.length < 4 ∨ argv.length % 2 ≠ 0 then .usage
  else if InInt (literal (argv.getD 1 [])) then chain (literal (argv.getD 1 [])) (argv.drop 2) else .error

/-- The text reports the outcome. -/
def Reports (t : Text) : Outcome → Prop
  | .usage => t = usage
  | .value x => t = println (text x)
  | .error => bytes "error" <+: t

/-- No operation is undefined, and what is printed is what should be. -/
def TokensRight (memory : Fin bufferSize → BitVec 8) (argv : List Text) : Prop :=
  ∃ t, cmdCalc memory argv = .ok t ∧ Reports t (idealCalc argv)

/-- Every number that the chain comes to is in range. -/
def ChainFits (acc : ℤ) : List Text → Prop
  | op :: num :: rest => Readable (literal num) ∧ (IsOperator (op.headD 0) →
      Defined (op.headD 0) acc (literal num) ∧
        ∀ r, evaluate (op.headD 0) acc (literal num) = some r → ChainFits r rest)
  | _ => True

def TokensFit (argv : List Text) : Prop :=
  4 ≤ argv.length → argv.length % 2 = 0 →
    Readable (literal (argv.getD 1 [])) ∧ ChainFits (literal (argv.getD 1 [])) (argv.drop 2)

/-! ### Where the command is right -/

variable {memory : Fin bufferSize → BitVec 8} {c : BitVec 8} {acc b : ℤ}

/-- The operand comes first, whatever the operator. -/
theorem accumulate_of_not_operator (h : ¬ IsOperator c) : accumulate c acc b = .ok (.inl (unknownOperator c)) := by
  obtain ⟨hplus, hminus, htimes, hslash, hpercent⟩ : c ≠ plus ∧ c ≠ minus ∧ c ≠ times ∧ c ≠ slash ∧ c ≠ percent := by
    simpa [IsOperator] using h
  unfold accumulate
  rw [if_neg hplus, if_neg hminus, if_neg htimes, if_neg hslash, if_neg hpercent]

theorem accumulate_zero (h : IsDivision c) : ∃ t, accumulate c acc 0 = .ok (.inl t) ∧ bytes "error" <+: t := by
  rcases h with rfl | rfl
  · exact ⟨divisionByZero, rfl, by decide⟩
  · exact ⟨moduloByZero, rfl, by decide⟩

theorem accumulate_eq (h : IsOperator c) (hzero : ¬(IsDivision c ∧ b = 0)) :
    accumulate c acc b = if InInt (reach c acc b) then .ok (.inr (combine c acc b)) else .error .fault := by
  have hmap (x : ℤ) : (Sum.inr <$> int x : Exec (Text ⊕ ℤ)) = if InInt x then .ok (.inr x) else .error .fault := by
    unfold int
    split_ifs <;> rfl
  have hrest (x y : ℤ) : (do let _ ← int x; .ok (.inr y) : Exec (Text ⊕ ℤ)) =
      if InInt x then .ok (.inr y) else .error .fault := by
    unfold int
    split_ifs <;> rfl
  rcases h with rfl | rfl | rfl | rfl | rfl
  · exact hmap _
  · exact hmap _
  · exact hmap _
  · have hb : b ≠ 0 := fun hb => hzero ⟨.inl rfl, hb⟩
    exact (if_neg hb).trans (hmap _)
  · have hb : b ≠ 0 := fun hb => hzero ⟨.inr rfl, hb⟩
    exact (if_neg hb).trans (hrest _ _)

theorem printResult_eq (h : InInt acc) : printResult memory acc = .ok (println (text acc)) := by
  have hlength := length_text_le h
  have hsize : (List.ofFn memory).length = 32 := List.length_ofFn
  unfold printResult text at *
  by_cases hneg : acc < 0
  · rw [if_pos hneg, List.length_cons] at hlength
    have hfits : (numeral (-acc).toNat).length < (List.ofFn memory).length := by omega
    obtain ⟨buf, hwritten, hholds, -⟩ := u64toa_holds hfits
    rw [if_pos hneg, if_pos hneg, hwritten, Exec.ok_bind, stringAt_eq hholds]
    rfl
  · rw [if_neg hneg] at hlength
    have hfits : (numeral acc.toNat).length < (List.ofFn memory).length := by omega
    obtain ⟨buf, hwritten, hholds, -⟩ := u64toa_holds hfits
    rw [if_neg hneg, if_neg hneg, hwritten, Exec.ok_bind, stringAt_eq hholds]
    rfl

theorem calcLoop_cons (op num : Text) (rest : List Text) (hread : Readable (literal num)) :
    calcLoop memory acc (op :: num :: rest) = accumulate (op.headD 0) acc (literal num) >>= fun x =>
      match x with
      | .inl t => .ok t
      | .inr accumulated => calcLoop memory accumulated rest := by
  rw [calcLoop, atoi_eq, if_pos hread]
  rfl

theorem calcLoop_unreadable (op num : Text) (rest : List Text) (hread : ¬ Readable (literal num)) :
    calcLoop memory acc (op :: num :: rest) = .error .fault := by
  rw [calcLoop, atoi_eq, if_neg hread]
  rfl

/-- What is out of range stops the loop, and so does not report anything. -/
theorem not_right_of_fault {m : Exec Text} {o : Outcome} (h : m = .error .fault) :
    ¬ ∃ t, m = .ok t ∧ Reports t o := by
  rintro ⟨t, ht, -⟩
  rw [h] at ht
  cases ht

theorem calcLoop_undefined (op num : Text) (rest : List Text) (hop : IsOperator (op.headD 0))
    (hundefined : ¬ Defined (op.headD 0) acc (literal num)) :
    calcLoop memory acc (op :: num :: rest) = .error .fault := by
  by_cases hread : Readable (literal num)
  · have hzero : ¬(IsDivision (op.headD 0) ∧ literal num = 0) := fun hzero => hundefined ⟨hread, .inl hzero⟩
    rw [calcLoop_cons op num rest hread, accumulate_eq hop hzero,
      if_neg fun hreach => hundefined ⟨hread, .inr hreach⟩]
    rfl
  · exact calcLoop_unreadable op num rest hread

theorem calcLoop_iff (memory : Fin bufferSize → BitVec 8) (hacc : InInt acc) (l : List Text) :
    (∃ t, calcLoop memory acc l = .ok t ∧ Reports t (chain acc l)) ↔ ChainFits acc l := by
  induction acc, l using chain.induct with
  | case1 acc op num rest hop hnone =>
    by_cases hdefined : Defined (op.headD 0) acc (literal num)
    · -- only a divisor of zero has no value here
      have hzero : IsDivision (op.headD 0) ∧ literal num = 0 := by
        by_contra hzero
        rw [evaluate, if_neg hzero, if_pos ⟨hdefined.1.inInt, hdefined.2.resolve_left hzero⟩] at hnone
        cases hnone
      obtain ⟨t, ht, herror⟩ := accumulate_zero hzero.1
      rw [calcLoop_cons op num rest hdefined.1, hzero.2, ht, chain, if_pos hop, hnone]
      constructor
      · intro _
        exact ⟨hdefined.1, fun _ => ⟨hdefined, fun r hr => by rw [hnone] at hr; cases hr⟩⟩
      · intro _
        exact ⟨t, rfl, herror⟩
    · exact iff_of_false (not_right_of_fault (calcLoop_undefined op num rest hop hdefined))
        (fun hfits => hdefined (hfits.2 hop).1)
  | case2 acc op num rest hop r hsome ih =>
    by_cases hdefined : Defined (op.headD 0) acc (literal num)
    · have hzero : ¬(IsDivision (op.headD 0) ∧ literal num = 0) := by
        intro hzero
        rw [evaluate, if_pos hzero] at hsome
        cases hsome
      have hreach := hdefined.2.resolve_left hzero
      have hr : combine (op.headD 0) acc (literal num) = r := by
        rw [evaluate, if_neg hzero, if_pos ⟨hdefined.1.inInt, hreach⟩] at hsome
        exact Option.some.inj hsome
      rw [calcLoop_cons op num rest hdefined.1, accumulate_eq hop hzero, if_pos hreach, Exec.ok_bind, hr, chain,
        if_pos hop, hsome]
      refine (ih (evaluate_inInt hsome)).trans ?_
      constructor
      · intro hrest
        refine ⟨hdefined.1, fun _ => ⟨hdefined, fun r' hr' => ?_⟩⟩
        rw [hsome] at hr'
        cases hr'
        exact hrest
      · exact fun hfits => (hfits.2 hop).2 r hsome
    · exact iff_of_false (not_right_of_fault (calcLoop_undefined op num rest hop hdefined))
        (fun hfits => hdefined (hfits.2 hop).1)
  | case3 acc op num rest hop =>
    by_cases hread : Readable (literal num)
    · rw [calcLoop_cons op num rest hread, accumulate_of_not_operator hop, chain, if_neg hop]
      refine iff_of_true ⟨_, rfl, ?_⟩ ⟨hread, fun h => absurd h hop⟩
      exact ⟨bytes ": unknown operator '" ++ op.headD 0 :: println (bytes "'"), rfl⟩
    · exact iff_of_false (not_right_of_fault (calcLoop_unreadable op num rest hread)) (fun hfits => hread hfits.1)
  | case4 l acc hshort =>
    have hloop : calcLoop memory acc l = printResult memory acc := by
      rw [calcLoop]
      exact hshort
    have hchain : chain acc l = .value acc := by
      rw [chain]
      exact hshort
    have hfits : ChainFits acc l := by
      rw [ChainFits]
      · trivial
      · exact hshort
    rw [hloop, printResult_eq hacc, hchain]
    exact iff_of_true ⟨_, rfl, rfl⟩ hfits

theorem tokensRight_iff (memory : Fin bufferSize → BitVec 8) (argv : List Text) :
    TokensRight memory argv ↔ TokensFit argv := by
  unfold TokensRight TokensFit cmdCalc idealCalc
  by_cases husage : argv.length < 4 ∨ argv.length % 2 ≠ 0
  · rw [if_pos husage, if_pos husage]
    exact iff_of_true ⟨usage, rfl, rfl⟩ (by omega)
  · rw [if_neg husage, if_neg husage, forall_prop_of_true (by omega), forall_prop_of_true (by omega), atoi_eq]
    by_cases hread : Readable (literal (argv.getD 1 []))
    · rw [if_pos hread, Exec.ok_bind, if_pos hread.inInt, calcLoop_iff memory hread.inInt]
      exact ⟨fun h => ⟨hread, h⟩, fun h => h.2⟩
    · rw [if_neg hread]
      exact iff_of_false (not_right_of_fault rfl) (fun h => hread h.1)

end DualFuse.Utility.Shell
