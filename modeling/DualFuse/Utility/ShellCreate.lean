import DualFuse.Library.CString
import DualFuse.Library.PathText
import DualFuse.Utility.ShellCalc

/-! The shell's command lines and its `CREATE` (`utility/shell.cpp`). A line is a string in a
buffer; the tokenizer puts terminators behind its words, and a word is the string from the place
where it begins. `CREATE` joins the words of the content in an array of 512 bytes. The path, the
file and the other commands are left out. -/

namespace DualFuse.Utility.Shell

open Library Library.CString Library.PathText Numbers

def space : BitVec 8 := 32

/-- `tokenize` from `scan_pointer` on, with the arguments that there is still room for. -/
def tokenizeFrom : ℕ → Text → ℕ → Exec (Text × List ℕ)
  | 0, line, scan => do
    let _ ← charAt line scan
    .ok (line, [])
  | left + 1, line, scan => do
    let c ← charAt line scan
    if c = 0 then .ok (line, [])
    else do
      let start ← skipWhile line (fun c => c = space) scan
      let c ← charAt line start
      if c = 0 then .ok (line, [])
      else do
        let stop ← skipWhile line (fun c => c ≠ space ∧ c ≠ 0) start
        let c ← charAt line stop
        let (line, argv) ←
          (if c = space then tokenizeFrom left (line.set stop 0) (stop + 1) else tokenizeFrom left line stop)
        .ok (line, start :: argv)

def tokenize (line : Text) (maximumArgumentCount : ℕ) : Exec (Text × List ℕ) :=
  tokenizeFrom maximumArgumentCount line 0

def toUpper (c : BitVec 8) : BitVec 8 := if 97 ≤ c ∧ c ≤ 122 then c - 32 else c

def strToupper (t : Text) : Text := t.map toUpper

def contentSize : ℕ := 512

/-- The loop of `cmd_mk`, from an argument on. -/
def joinContent (buf : Text) : List Text → Exec Text
  | [] => .ok buf
  | [word] => strcat buf word
  | word :: words => do
    let buf ← strcat buf word
    let buf ← strcat buf [space]
    joinContent buf words

/-- The message, or the content of the file. The array holds anything at first. -/
def cmdMk (memory : Fin contentSize → BitVec 8) (argv : List Text) : Exec (Text ⊕ Text) :=
  if argv.length < 3 then .ok (.inl (println (bytes "Usage: MK <filename> <content>")))
  else do
    let buf ← setAt (List.ofFn memory) 0 0
    let buf ← joinContent buf (argv.drop 2)
    .ok (.inr (content buf))

def maximumArguments : ℕ := 100

def create : Text := bytes "CREATE"

/-- What `CREATE` answers, if the line is one. -/
def execute (memory : Fin contentSize → BitVec 8) (line : Text) : Exec (Option (Text ⊕ Text)) := do
  let (line, argv) ← tokenize line maximumArguments
  match argv.map fun a => content (line.drop a) with
  | [] => .ok none
  | word :: words => if strToupper word = create then some <$> cmdMk memory (strToupper word :: words) else .ok none

/-! ### The promise -/

/-- The words of a line. -/
def words (text : Text) : List Text := (runs space text).take maximumArguments

def IsCreate (text : Text) : Prop := ∃ word rest, words text = word :: rest ∧ strToupper word = create

/-- The words from the third on, with single spaces between them. -/
def joined (text : Text) : Text := [space].intercalate ((words text).drop 2)

/-- The words are right, and `CREATE` ends with the joined text. -/
def LineRight (memory : Fin contentSize → BitVec 8) (line text : Text) : Prop :=
  (∃ buf argv, tokenize line maximumArguments = .ok (buf, argv) ∧
      argv.map (fun a => content (buf.drop a)) = words text) ∧
    ∃ r, execute memory line = .ok r ∧ (IsCreate text → 3 ≤ (words text).length → r = some (.inr (joined text)))

/-- The joined text of a `CREATE` has at most 511 bytes. -/
def LineFits (text : Text) : Prop := IsCreate text → (joined text).length + 1 ≤ contentSize

section Tokens

variable {left : ℕ} {pre text tail : Text}

theorem tokenizeFrom_end (left : ℕ) (pre tail : Text) :
    tokenizeFrom left (pre ++ 0 :: tail) pre.length = .ok (pre ++ 0 :: tail, []) := by
  cases left with
  | zero => rw [tokenizeFrom, charAt_append, Exec.ok_bind]
  | succ left => rw [tokenizeFrom, charAt_append, Exec.ok_bind, if_pos rfl]

theorem content_word {word : Text} (hword : 0 ∉ word) (pre tail : Text) :
    content ((pre ++ (word ++ 0 :: tail)).drop pre.length) = word := by
  rw [List.drop_left]
  exact Holds.content_eq ⟨hword, tail, rfl⟩

/-- Only spaces are left. -/
theorem tokenizeFrom_spaces (n : ℕ) :
    tokenizeFrom (left + 1) (pre ++ (List.replicate n space ++ 0 :: tail)) pre.length =
      .ok (pre ++ (List.replicate n space ++ 0 :: tail), []) := by
  cases n with
  | zero => exact tokenizeFrom_end _ pre tail
  | succ n =>
    have hskip : skipWhile (pre ++ (List.replicate (n + 1) space ++ 0 :: tail)) (fun c => c = space) pre.length =
        .ok (pre.length + (List.replicate (n + 1) space).length) := skipWhile_append (by simp) (by decide)
    have hend : charAt (pre ++ (List.replicate (n + 1) space ++ 0 :: tail))
        (pre.length + (List.replicate (n + 1) space).length) = .ok 0 := by
      rw [← List.append_assoc, ← List.length_append]
      exact charAt_append
    rw [tokenizeFrom, hskip, Exec.ok_bind, hend, Exec.ok_bind, if_pos rfl, List.replicate_succ, List.cons_append,
      charAt_append, Exec.ok_bind, if_neg (by decide)]

/-- A word comes next, and then a space or the end. -/
theorem tokenizeFrom_word {word : Text} {c : BitVec 8} (n : ℕ) (hne : word ≠ []) (hspace : space ∉ word)
    (hzero : 0 ∉ word) (hc : c = space ∨ c = 0) :
    tokenizeFrom (left + 1) (pre ++ (List.replicate n space ++ (word ++ c :: tail))) pre.length =
      (if c = space then
        tokenizeFrom left (pre ++ List.replicate n space ++ word ++ 0 :: tail)
          ((pre ++ List.replicate n space ++ word).length + 1)
      else
        tokenizeFrom left (pre ++ List.replicate n space ++ word ++ c :: tail)
          (pre ++ List.replicate n space ++ word).length) >>=
        fun r => .ok (r.1, (pre ++ List.replicate n space).length :: r.2) := by
  obtain ⟨a, word, rfl⟩ := List.exists_cons_of_ne_nil hne
  have ha : a ≠ space ∧ a ≠ 0 :=
    ⟨fun heq => hspace (heq ▸ List.mem_cons_self), fun heq => hzero (heq ▸ List.mem_cons_self)⟩
  have hhead : ∃ b l, b ≠ 0 ∧ List.replicate n space ++ (a :: word ++ c :: tail) = b :: l := by
    cases n with
    | zero => exact ⟨a, _, ha.2, rfl⟩
    | succ n => exact ⟨space, _, by decide, rfl⟩
  obtain ⟨b, l, hb, hline⟩ := hhead
  have hfirst : charAt (pre ++ (List.replicate n space ++ (a :: word ++ c :: tail))) pre.length = .ok b := by
    rw [hline, charAt_append]
  have hskip : skipWhile (pre ++ (List.replicate n space ++ (a :: word ++ c :: tail))) (fun c => c = space)
      pre.length = .ok (pre ++ List.replicate n space).length := by
    rw [List.length_append]
    exact skipWhile_append (by simp) (by simpa using ha.1)
  rw [tokenizeFrom, hfirst, Exec.ok_bind, if_neg hb, hskip, Exec.ok_bind, ← List.append_assoc]
  generalize pre ++ List.replicate n space = pre
  have hstart : charAt (pre ++ (a :: word ++ c :: tail)) pre.length = .ok a := charAt_append
  have hword : skipWhile (pre ++ (a :: word ++ c :: tail)) (fun c => c ≠ space ∧ c ≠ 0) pre.length =
      .ok (pre ++ (a :: word)).length := by
    rw [List.length_append]
    exact skipWhile_append (by grind) (by grind)
  have hstop : charAt (pre ++ (a :: word ++ c :: tail)) (pre ++ (a :: word)).length = .ok c := by
    rw [← List.append_assoc, charAt_append]
  have hset : (pre ++ (a :: word ++ c :: tail)).set (pre ++ (a :: word)).length 0 =
      pre ++ (a :: word) ++ 0 :: tail := by
    rw [← List.append_assoc, List.set_append_right _ _ le_rfl, Nat.sub_self, List.set_cons_zero]
  rw [hstart, Exec.ok_bind, if_neg ha.2, hword, Exec.ok_bind, hstop, Exec.ok_bind, hset, ← List.append_assoc]

/-- The arguments are the first runs without a space; what is in front of the pointer stays. -/
theorem tokenizeFrom_eq (hzero : 0 ∉ text) : ∃ rest argv,
    tokenizeFrom left (pre ++ (text ++ 0 :: tail)) pre.length = .ok (pre ++ rest, argv) ∧
      argv.map (fun a => content ((pre ++ rest).drop a)) = (runs space text).take left := by
  induction left generalizing pre text with
  | zero =>
    refine ⟨text ++ 0 :: tail, [], ?_, rfl⟩
    cases text with
    | nil => exact tokenizeFrom_end 0 pre tail
    | cons c text => rw [List.cons_append, tokenizeFrom, charAt_append, Exec.ok_bind]
  | succ left ih =>
    obtain ⟨n, t, rfl, ht⟩ := exists_separators space text
    obtain ⟨word, t, rfl, hspace, hend⟩ := exists_name space t
    rw [runs_replicate_append]
    have hword : 0 ∉ word := fun hmem => hzero (List.mem_append_right _ (List.mem_append_left _ hmem))
    by_cases hne : word = []
    · subst hne
      rcases hend with rfl | ⟨r, rfl⟩
      · rw [List.append_nil, List.append_nil, tokenizeFrom_spaces]
        exact ⟨_, [], rfl, by simp⟩
      · exact absurd rfl ht
    · rcases hend with rfl | ⟨r, rfl⟩
      · refine ⟨List.replicate n space ++ (word ++ 0 :: tail), [(pre ++ List.replicate n space).length], ?_, ?_⟩
        · rw [List.append_nil, List.append_assoc, tokenizeFrom_word n hne hspace hword (.inr rfl),
            if_neg (by decide), tokenizeFrom_end, Exec.ok_bind]
          simp only [List.append_assoc]
        · rw [List.append_nil, runs_name hspace hne, List.map_singleton, ← List.append_assoc, content_word hword]
          exact (List.take_of_length_le (by simp)).symm
      · have hr : 0 ∉ r :=
          fun hmem => hzero (List.mem_append_right _ (List.mem_append_right _ (List.mem_cons_of_mem _ hmem)))
        obtain ⟨rest, argv, hrest, hargv⟩ := @ih (pre ++ List.replicate n space ++ word ++ [0]) r hr
        have hline : ∀ t : Text, pre ++ (List.replicate n space ++ (word ++ 0 :: t)) =
            pre ++ List.replicate n space ++ word ++ [0] ++ t := by simp
        refine ⟨List.replicate n space ++ (word ++ 0 :: rest), (pre ++ List.replicate n space).length :: argv, ?_, ?_⟩
        · have hstop : (pre ++ List.replicate n space ++ word).length + 1 =
              (pre ++ List.replicate n space ++ word ++ [0]).length := by
            simp [Nat.add_assoc]
          rw [List.append_assoc, List.append_assoc, List.cons_append, tokenizeFrom_word n hne hspace hword (.inl rfl),
            if_pos rfl, List.append_assoc, List.append_assoc, hline, hstop, hrest, Exec.ok_bind, hline]
        · rw [runs_append_cons hspace, if_neg hne, List.singleton_append, List.take_succ_cons, List.map_cons, ← hargv,
            ← hline, ← List.append_assoc, content_word hword]

theorem tokenize_eq {line : Text} (h : Holds line text) : ∃ buf argv,
    tokenize line maximumArguments = .ok (buf, argv) ∧ argv.map (fun a => content (buf.drop a)) = words text := by
  obtain ⟨hzero, tail, rfl⟩ := h
  have htokens : ∃ rest argv, tokenizeFrom maximumArguments ([] ++ (text ++ 0 :: tail)) 0 = .ok ([] ++ rest, argv) ∧
      argv.map (fun a => content (([] ++ rest).drop a)) = (runs space text).take maximumArguments :=
    tokenizeFrom_eq hzero
  obtain ⟨rest, argv, hcall, hargv⟩ := htokens
  exact ⟨rest, argv, hcall, hargv⟩

end Tokens

section Content

variable {buf str : Text}

theorem intercalate_cons_length (word word' : Text) (ws : List Text) :
    ([space].intercalate (word :: word' :: ws)).length =
      word.length + 1 + ([space].intercalate (word' :: ws)).length := by
  rw [List.intercalate_cons_cons, List.length_append, List.length_append, List.length_singleton]

theorem joinContent_cons_cons (buf word word' : Text) (ws : List Text) :
    joinContent buf (word :: word' :: ws) =
      strcat buf word >>= fun buf => strcat buf [space] >>= fun buf => joinContent buf (word' :: ws) := rfl

/-- The words are joined behind what the buffer holds, as long as there is room for all of them. -/
theorem joinContent_spec {ws : List Text} (h : Holds buf str) (hws : ∀ word ∈ ws, 0 ∉ word) :
    if str.length + ([space].intercalate ws).length < buf.length then
      ∃ buf', joinContent buf ws = .ok buf' ∧ Holds buf' (str ++ [space].intercalate ws)
    else joinContent buf ws = .error .fault := by
  induction ws generalizing buf str with
  | nil =>
    rw [if_pos (by simpa using h.length_lt)]
    exact ⟨buf, rfl, by simpa using h⟩
  | cons word ws ih =>
    obtain ⟨hword, hrest⟩ := List.forall_mem_cons.mp hws
    cases ws with
    | nil =>
      rw [List.intercalate_singleton]
      split_ifs with hfits
      · obtain ⟨buf', hcat, hholds, -⟩ := h.strcat hword hfits
        exact ⟨buf', hcat, hholds⟩
      · exact h.strcat_fault (not_lt.mp hfits)
    | cons word' ws =>
      rw [joinContent_cons_cons, intercalate_cons_length]
      by_cases hfirst : str.length + word.length < buf.length
      · obtain ⟨buf₁, hcat₁, hholds₁, hlength₁⟩ := h.strcat hword hfirst
        rw [hcat₁, Exec.ok_bind]
        have hlength : (str ++ word).length = str.length + word.length := List.length_append
        by_cases hspace : (str ++ word).length + [space].length < buf₁.length
        · obtain ⟨buf₂, hcat₂, hholds₂, hlength₂⟩ := hholds₁.strcat (by decide) hspace
          have hlength' : (str ++ word ++ [space]).length = str.length + word.length + 1 := by
            rw [List.length_append, hlength, List.length_singleton]
          have hjoin := ih hholds₂ hrest
          rw [hcat₂, Exec.ok_bind, List.intercalate_cons_cons]
          rw [hlength', hlength₂, hlength₁] at hjoin
          simpa only [Nat.add_assoc, List.append_assoc] using hjoin
        · rw [hholds₁.strcat_fault (not_lt.mp hspace), if_neg]
          · rfl
          · rw [hlength, List.length_singleton, hlength₁] at hspace
            omega
      · rw [h.strcat_fault (not_lt.mp hfirst), if_neg (by omega)]
        rfl

end Content

theorem setAt_holds_nil (memory : Fin contentSize → BitVec 8) :
    ∃ buf, setAt (List.ofFn memory) 0 0 = .ok buf ∧ Holds buf [] ∧ buf.length = contentSize := by
  have hlength : (List.ofFn memory).length = contentSize := List.length_ofFn
  generalize List.ofFn memory = buf at hlength ⊢
  cases buf with
  | nil => cases hlength
  | cons a buf => exact ⟨0 :: buf, if_pos (Nat.succ_pos _), ⟨List.not_mem_nil, buf, rfl⟩, hlength⟩

theorem zero_notMem_words {text : Text} (hzero : 0 ∉ text) : ∀ word ∈ words text, 0 ∉ word :=
  fun _ hword hmem => hzero (mem_of_mem_runs (List.mem_of_mem_take hword) hmem)

/-- A `CREATE` with content writes the joined words, or leaves the array. -/
theorem cmdMk_spec (memory : Fin contentSize → BitVec 8) {argv : List Text} (hlength : 3 ≤ argv.length)
    (hzero : ∀ word ∈ argv.drop 2, 0 ∉ word) :
    cmdMk memory argv =
      if ([space].intercalate (argv.drop 2)).length + 1 ≤ contentSize then
        .ok (.inr ([space].intercalate (argv.drop 2)))
      else .error .fault := by
  obtain ⟨buf, hset, hholds, hsize⟩ := setAt_holds_nil memory
  have hjoin := joinContent_spec hholds hzero
  rw [hsize, List.length_nil, Nat.zero_add, List.nil_append] at hjoin
  rw [cmdMk, if_neg (by omega), hset, Exec.ok_bind]
  by_cases hfits : ([space].intercalate (argv.drop 2)).length + 1 ≤ contentSize
  · rw [if_pos (by omega)] at hjoin
    obtain ⟨buf', hcall, hholds'⟩ := hjoin
    rw [hcall, Exec.ok_bind, hholds'.content_eq, if_pos hfits]
  · rw [if_neg (by omega)] at hjoin
    rw [hjoin, if_neg hfits]
    rfl

theorem execute_eq (memory : Fin contentSize → BitVec 8) {line text : Text} (h : Holds line text) :
    execute memory line =
      match words text with
      | [] => .ok none
      | word :: ws =>
        if strToupper word = create then some <$> cmdMk memory (strToupper word :: ws) else .ok none := by
  obtain ⟨buf, argv, hcall, hargv⟩ := tokenize_eq h
  rw [execute, hcall, Exec.ok_bind]
  dsimp only
  rw [hargv]
  cases words text with
  | nil => rfl
  | cons word ws => rfl

theorem lineRight_iff_fits (memory : Fin contentSize → BitVec 8) {line text : Text} (h : Holds line text) :
    LineRight memory line text ↔ LineFits text := by
  rw [LineRight, and_iff_right (tokenize_eq h), execute_eq memory h, LineFits]
  have hzero := zero_notMem_words h.1
  cases hwords : words text with
  | nil =>
    have hnot : ¬IsCreate text := by
      rintro ⟨word, ws, heq, -⟩
      rw [hwords] at heq
      cases heq
    exact iff_of_true ⟨none, rfl, fun hcreate => absurd hcreate hnot⟩ fun hcreate => absurd hcreate hnot
  | cons word ws =>
    have hcreate : IsCreate text ↔ strToupper word = create := by
      constructor
      · rintro ⟨word', ws', heq, hupper⟩
        obtain ⟨rfl, -⟩ := List.cons_eq_cons.mp (hwords.symm.trans heq)
        exact hupper
      · exact fun hupper => ⟨word, ws, hwords, hupper⟩
    dsimp only
    rw [hcreate]
    by_cases hupper : strToupper word = create
    · have hjoined : joined text = [space].intercalate (ws.drop 1) := by rw [joined, hwords, List.drop_succ_cons]
      rw [if_pos hupper, hjoined]
      by_cases hlength : 3 ≤ (word :: ws).length
      · have hrest : ∀ w ∈ (strToupper word :: ws).drop 2, 0 ∉ w := by
          intro w hw
          rw [List.drop_succ_cons] at hw
          exact hzero w (hwords ▸ List.mem_cons_of_mem _ (List.mem_of_mem_drop hw))
        have hthree : 3 ≤ (strToupper word :: ws).length := hlength
        rw [cmdMk_spec memory hthree hrest, List.drop_succ_cons]
        by_cases hfits : ([space].intercalate (ws.drop 1)).length + 1 ≤ contentSize
        · rw [if_pos hfits]
          exact iff_of_true ⟨_, rfl, fun _ _ => rfl⟩ fun _ => hfits
        · rw [if_neg hfits]
          refine iff_of_false ?_ fun hright => hfits (hright hupper)
          rintro ⟨r, herr, -⟩
          cases herr
      · have hempty : ws.drop 1 = [] := by
          rw [List.length_cons] at hlength
          exact List.drop_eq_nil_of_le (by omega)
        rw [cmdMk, if_pos (show (strToupper word :: ws).length < 3 from not_le.mp hlength), hempty]
        exact iff_of_true ⟨_, rfl, fun _ hlong => absurd hlong hlength⟩ fun _ => by decide
    · rw [if_neg hupper]
      exact iff_of_true ⟨none, rfl, fun heq => absurd heq hupper⟩ fun heq => absurd heq hupper

/-- A line is cut into its words, and its `CREATE` ends with them joined, exactly when they fit
into the array of the content. -/
theorem createLine_right_iff (memory : Fin contentSize → BitVec 8) {line text : Text} (h : Holds line text) :
    LineRight memory line text ↔ LineFits text :=
  lineRight_iff_fits memory h

theorem createLine_right_blank : LineRight (fun _ => 0) [32, 0] [32] ↔ LineFits [32] :=
  createLine_right_iff (fun _ => 0) ⟨by decide, [], rfl⟩

/-- `CREATE a`, and a word of 512 bytes. -/
def longLine : Text := create ++ space :: ([97] ++ space :: List.replicate contentSize 120)

theorem words_longLine : words longLine = [create, [97], List.replicate contentSize 120] := by
  have hlast : space ∉ List.replicate contentSize (120 : BitVec 8) := by
    rw [List.mem_replicate]
    exact fun hmem => absurd hmem.2 (by decide)
  have hne : List.replicate contentSize (120 : BitVec 8) ≠ [] := by
    rw [Ne, List.replicate_eq_nil_iff]
    decide
  rw [words, longLine, runs_append_cons (by decide), runs_append_cons (by decide), runs_name hlast hne]
  rfl

/-- The joined text does not fit with its terminator. -/
theorem longLine_wrong : ¬LineRight (fun _ => 0) (longLine ++ [0]) longLine := by
  have hzero : 0 ∉ longLine := by
    rw [longLine]
    simp only [List.mem_append, List.mem_cons, List.mem_replicate]
    decide
  rw [lineRight_iff_fits _ ⟨hzero, [], rfl⟩]
  intro hfits
  have hlength := hfits ⟨create, _, words_longLine, by decide⟩
  rw [joined, words_longLine, List.drop_succ_cons, List.drop_succ_cons, List.drop_zero, List.intercalate_singleton,
    List.length_replicate] at hlength
  exact absurd hlength (by decide)

end DualFuse.Utility.Shell
