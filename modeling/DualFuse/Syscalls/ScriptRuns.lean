import Mathlib.Data.List.TakeWhile
import DualFuse.Syscalls.Scripts
import DualFuse.Utility.ElfBounds

/-! Which scripts are run. The line of a script is split as it should be, except that an empty
argument ends the new array. A call for a script ends well exactly where every interpreter on the
way is there, is run with the right arguments, and the last one is a program that the loader
takes: every error on the way meets the assertion, and a cycle of scripts has no end. -/

namespace DualFuse.Syscalls.Scripts

open Library Utility Filesystems VfsPath

variable {c t l z filename : Text} {b : BitVec 8} {i n : ℕ} {argv : Argv} {m : Machine}

/-! ### The first line -/

/-- The bytes of a line. -/
def line (l : Text) : Text := l.takeWhile (· ≠ newline)

theorem content_zero (l : Text) : CString.content (0 :: l) = [] := by
  rw [CString.content, List.takeWhile_cons_of_neg (by simp)]

theorem content_cons (hb : b ≠ 0) (l : Text) : CString.content (b :: l) = b :: CString.content l := by
  rw [CString.content, List.takeWhile_cons_of_pos (by simpa using hb), CString.content]

theorem line_newline (l : Text) : line (newline :: l) = [] := by
  rw [line, List.takeWhile_cons_of_neg (by simp)]

theorem line_cons (hb : b ≠ newline) (l : Text) : line (b :: l) = b :: line l := by
  rw [line, List.takeWhile_cons_of_pos (by simpa using hb), line]

/-- Behind the first space the loop only looks for the end of the line. -/
theorem scanLine_spaces (i n : ℕ) (l z : Text) : (scanLine i (n + 1) l).2 = none ∧
    CString.content ((scanLine i (n + 1) l).1 ++ 0 :: z) = (line l).takeWhile (· ≠ 0) := by
  induction l generalizing i n with
  | nil => exact ⟨rfl, content_zero z⟩
  | cons b l ih =>
    obtain ⟨hsome, hcontent⟩ := ih (i + 1) (n + 1)
    unfold scanLine
    by_cases hspace : b = space
    · rw [if_pos hspace, if_neg (by omega), hspace]
      refine ⟨hsome, ?_⟩
      rw [List.cons_append, content_cons (by decide), hcontent, line_cons (by decide),
        List.takeWhile_cons_of_pos (by decide)]
    rw [if_neg hspace]
    by_cases hnewline : b = newline
    · rw [if_pos hnewline, hnewline]
      exact ⟨rfl, by rw [List.cons_append, content_zero, line_newline]; rfl⟩
    · obtain ⟨hsome, hcontent⟩ := ih (i + 1) n
      rw [if_neg hnewline]
      refine ⟨hsome, ?_⟩
      rw [List.cons_append, line_cons hnewline]
      by_cases hzero : b = 0
      · rw [hzero, content_zero, List.takeWhile_cons_of_neg (by simp)]
      · rw [content_cons hzero, hcontent, List.takeWhile_cons_of_pos (by simpa using hzero)]

/-- The text before the first space, and the pointer to what is behind it. -/
theorem scanLine_first (i : ℕ) (l z : Text) :
    CString.content ((scanLine i 0 l).1 ++ 0 :: z) = (line l).takeWhile (fun b => b ≠ space ∧ b ≠ 0) ∧
      ((scanLine i 0 l).2.isSome ↔ space ∈ line l) ∧
      ∀ k, (scanLine i 0 l).2 = some k → i ≤ k ∧ CString.content (((scanLine i 0 l).1 ++ 0 :: z).drop (k - i)) =
        (((line l).dropWhile (· ≠ space)).drop 1).takeWhile (· ≠ 0) := by
  induction l generalizing i with
  | nil => exact ⟨content_zero z, by simp [scanLine, line], fun k hk => by cases hk⟩
  | cons b l ih =>
    unfold scanLine
    by_cases hspace : b = space
    · obtain ⟨-, hcontent⟩ := scanLine_spaces (i + 1) 0 l z
      rw [if_pos hspace, if_pos rfl, hspace, line_cons (by decide)]
      refine ⟨?_, ?_, ?_⟩
      · rw [List.cons_append, content_zero, List.takeWhile_cons_of_neg (by simp)]
      · simp
      · rintro k hk
        cases hk
        rw [List.dropWhile_cons_of_neg (by simp), Nat.add_sub_cancel_left]
        exact ⟨Nat.le_succ i, hcontent⟩
    rw [if_neg hspace]
    by_cases hnewline : b = newline
    · rw [if_pos hnewline, hnewline, line_newline]
      refine ⟨?_, by simp, fun k hk => by cases hk⟩
      rw [List.cons_append, content_zero]
      rfl
    · obtain ⟨hfirst, hsome, hbehind⟩ := ih (i + 1)
      rw [if_neg hnewline, line_cons hnewline]
      refine ⟨?_, ?_, ?_⟩
      · rw [List.cons_append]
        by_cases hzero : b = 0
        · rw [hzero, content_zero, List.takeWhile_cons_of_neg (by simp)]
        · rw [content_cons hzero, hfirst, List.takeWhile_cons_of_pos (by simpa using ⟨hspace, hzero⟩)]
      · rw [hsome, List.mem_cons]
        exact ⟨.inr, fun h => h.resolve_left fun heq => hspace heq.symm⟩
      · intro k hk
        obtain ⟨hle, hcontent⟩ := hbehind k hk
        rw [show k - i = k - (i + 1) + 1 by omega, List.cons_append, List.drop_succ_cons, hcontent,
          List.dropWhile_cons_of_pos (by simpa using hspace)]
        exact ⟨by omega, rfl⟩

/-- What the loop reads of the start of a script. -/
theorem scanned_script (hmagic : t.take 2 = magic) (hlen : t.length ≤ 255) :
    arg1 t = interpreter t ∧ arg2 t = if space ∈ firstLine t then some (argument t) else none := by
  obtain ⟨rest, rfl⟩ : ∃ rest, t = 35 :: 33 :: rest := by
    match t, hmagic with
    | [], h => cases h
    | [_], h => cases h
    | a :: b :: rest, h =>
      obtain ⟨rfl, hb⟩ := List.cons_eq_cons.mp h
      obtain ⟨rfl, -⟩ := List.cons_eq_cons.mp hb
      exact ⟨rest, rfl⟩
  have hskip : scanLine 0 0 (35 :: 33 :: rest) = (35 :: 33 :: (scanLine 2 0 rest).1, (scanLine 2 0 rest).2) := rfl
  obtain ⟨k, hk⟩ : ∃ k, 256 - (35 :: 33 :: rest).length = k + 1 := ⟨255 - (35 :: 33 :: rest).length, by omega⟩
  have hscanned : scanned (35 :: 33 :: rest) = 35 :: 33 :: ((scanLine 2 0 rest).1 ++ 0 :: List.replicate k 0) := by
    rw [scanned, hskip, hk]
    rfl
  obtain ⟨hfirst, hsome, hbehind⟩ := scanLine_first 2 rest (List.replicate k 0)
  refine ⟨?_, ?_⟩
  · rw [arg1, hscanned]
    exact hfirst
  · rw [arg2, hskip, hscanned]
    change ((scanLine 2 0 rest).2).map _ = if space ∈ line rest then _ else _
    cases hscan : (scanLine 2 0 rest).2 with
    | none =>
      rw [hscan] at hsome
      rw [if_neg fun hmem => by cases hsome.mpr hmem]
      rfl
    | some p =>
      rw [hscan] at hsome
      obtain ⟨hle, hcontent⟩ := hbehind p hscan
      rw [if_pos (hsome.mp rfl), Option.map_some]
      refine congrArg some (Eq.trans ?_ hcontent)
      rw [show p = p - 2 + 1 + 1 by omega, List.drop_succ_cons, List.drop_succ_cons,
        show p - 2 + 1 + 1 - 2 = p - 2 by omega]

/-! ### The new array -/

theorem readItems_map_some (l : List Arg) : readItems (l.map some) = l := by
  induction l with
  | nil => rfl
  | cons a l ih => rw [List.map_cons, readItems, ih]

theorem items_injectedArgv_ne_nil (t filename : Text) (argv : Argv) : (injectedArgv t filename argv).items ≠ [] := by
  simp [injectedArgv, Argv.items, readItems]

/-- An empty argument hides the rest of the array. -/
theorem texts_injectedArgv (t filename : Text) (argv : Argv) :
    (injectedArgv t filename argv).texts =
      match arg2 t with
      | none => arg1 t :: filename :: argv.texts.tail
      | some [] => [arg1 t]
      | some (b :: l) => arg1 t :: (b :: l) :: filename :: argv.texts.tail := by
  have htail : (readItems (argv.items.tail.map some)).map Arg.text = argv.texts.tail := by
    rw [readItems_map_some, Argv.texts, List.map_tail]
  change (readItems (injectedArgv t filename argv).slots).map Arg.text = _
  unfold injectedArgv
  cases arg2 t with
  | none =>
    change arg1 t :: filename :: (readItems (argv.items.tail.map some)).map Arg.text = _
    rw [htail]
  | some a =>
    cases a with
    | nil => rfl
    | cons b l =>
      change arg1 t :: (b :: l) :: filename :: (readItems (argv.items.tail.map some)).map Arg.text = _
      rw [htail]

theorem take_magic (h : c.take 2 = magic) : (c.take 255).take 2 = magic := by
  rw [List.take_take, min_eq_left (by omega), h]

/-- The interpreter is called as it should be exactly where the line reads. -/
theorem next_eq_iff (hmagic : c.take 2 = magic) :
    (⟨arg1 (c.take 255), (injectedArgv (c.take 255) filename argv).texts⟩ : Call) =
      ⟨interpreter c, interpreterArgs c ⟨filename, argv.texts⟩⟩ ↔ LineReads c := by
  obtain ⟨h₁, h₂⟩ := scanned_script (take_magic hmagic) (by rw [List.length_take]; omega)
  rw [texts_injectedArgv, h₁, h₂, Call.mk.injEq]
  unfold interpreterArgs LineReads
  refine and_congr_right fun hinterp => ?_
  rw [hinterp]
  by_cases hspace : space ∈ firstLine (c.take 255)
  · rw [if_pos hspace]
    cases harg : argument (c.take 255) with
    | nil =>
      constructor
      · intro heq
        have hlen := congrArg List.length heq
        simp at hlen
      · rintro ⟨hargument, hne⟩
        exact absurd hargument.symm (hne hspace)
    | cons b l =>
      by_cases hc : argument c = []
      · rw [if_pos hc, hc]
        constructor
        · intro heq
          have hlen := congrArg List.length heq
          simp at hlen
        · rintro ⟨hargument, -⟩
          cases hargument
      · rw [if_neg hc]
        simp [hspace, hc]
  · have hnone : argument (c.take 255) = [] := by
      have hall : ∀ b ∈ firstLine (c.take 255), (decide (b ≠ space)) = true := by
        intro b hb
        exact decide_eq_true fun heq => hspace (heq ▸ hb)
      rw [argument, List.dropWhile_eq_nil_iff.mpr hall]
      rfl
    rw [if_neg hspace, hnone]
    by_cases hc : argument c = []
    · rw [if_pos hc, hc]
      simp [hspace]
    · rw [if_neg hc]
      constructor
      · intro heq
        have hlen := congrArg List.length heq
        simp at hlen
      · rintro ⟨hargument, -⟩
        exact absurd hargument.symm hc

/-! ### Calls -/

theorem file_of_contents {path : PathName} (h : m.contents path = some c) : m.files path = .content c := by
  unfold Machine.contents at h
  cases hfile : m.files path with
  | missing =>
    rw [hfile] at h
    cases h
  | unreadable ret =>
    rw [hfile] at h
    cases h
  | content c' =>
    rw [hfile] at h
    exact congrArg _ (Option.some.inj h)

theorem not_content_of_absent {path : PathName} (hnone : m.contents path = none) : m.files path ≠ .content c := by
  intro hc
  unfold Machine.contents at hnone
  rw [hc] at hnone
  cases hnone

theorem syscallExecve_script (h : argv.items ≠ []) (hfile : m.files (fsSanitize m.cwd filename) = .content c)
    (hscript : 2 < c.length ∧ c.take 2 = magic) (n : ℕ) :
    syscallExecve m (n + 1) filename argv =
      syscallExecve m n (arg1 (c.take 255)) (injectedArgv (c.take 255) filename argv) >>=
        afterRecursion ⟨filename, argv.texts⟩ := by
  rw [syscallExecve, if_neg h, hfile]
  exact if_pos hscript

theorem syscallExecve_elf (h : argv.items ≠ []) (hfile : m.files (fsSanitize m.cwd filename) = .content c)
    (helf : 4 < c.length ∧ c.take 4 = elfMagic) (n : ℕ) :
    syscallExecve m (n + 1) filename argv = execElf m filename argv >>= fun answer => .ok (some answer) := by
  have hno : ¬(2 < c.length ∧ c.take 2 = magic) := by
    rintro ⟨-, hmagic⟩
    have htake := congrArg (List.take 2) helf.2
    rw [List.take_take, min_eq_left (by omega), hmagic] at htake
    exact absurd htake (by decide)
  rw [syscallExecve, if_neg h, hfile]
  exact (if_neg hno).trans (if_pos helf)

/-- A call that replaces the task, whose interpreters are all called as they should be. -/
theorem runs_of_replaced {calls : List Call} {loaded : Elf.Loaded} {table : TaskFiles}
    (h : syscallExecve m n filename argv = .ok (some (.replaced calls loaded table))) :
    calls.head? = some ⟨filename, argv.texts⟩ ∧ (calls.IsChain (RunsInterpreter m) → Runs m filename) := by
  induction n generalizing filename argv calls with
  | zero => cases h
  | succ n ih =>
    by_cases hitems : argv.items = []
    · rw [syscallExecve, if_pos hitems] at h
      cases h
    cases hfile : m.files (fsSanitize m.cwd filename) with
    | missing =>
      rw [syscallExecve, if_neg hitems, hfile] at h
      cases h
    | unreadable ret =>
      rw [syscallExecve, if_neg hitems, hfile] at h
      cases h
    | content c =>
      by_cases hscript : 2 < c.length ∧ c.take 2 = magic
      · rw [syscallExecve_script hitems hfile hscript] at h
        obtain ⟨answer, hanswer, hafter⟩ := Exec.bind_ok_iff.mp h
        match answer, hafter with
        | some (.replaced calls' loaded' table'), hafter =>
          cases hafter
          obtain ⟨hhead, hruns⟩ := ih hanswer
          refine ⟨rfl, fun hchain => ?_⟩
          obtain ⟨hnext, hchain'⟩ := List.isChain_cons.mp hchain
          obtain ⟨c', hfile', -, heq⟩ := hnext _ hhead
          have hc : c' = c := Opened.content.inj (hfile'.symm.trans hfile)
          rw [hc] at heq
          have hinterp : arg1 (c.take 255) = interpreter c := congrArg Call.filename heq
          exact .script hfile hscript ((next_eq_iff hscript.2).mp heq) (hinterp ▸ hruns hchain')
      · by_cases helf : 4 < c.length ∧ c.take 4 = elfMagic
        · rw [syscallExecve_elf hitems hfile helf] at h
          obtain ⟨answer, hanswer, hsome⟩ := Exec.bind_ok_iff.mp h
          cases hsome
          obtain ⟨r, hload, hrest⟩ := Exec.bind_ok_iff.mp hanswer
          cases r with
          | none => cases hrest
          | some loaded' =>
            obtain ⟨table', htable, heq⟩ := Exec.bind_ok_iff.mp hrest
            cases heq
            exact ⟨rfl, fun _ => .program hfile helf hload htable⟩
        · rw [syscallExecve, if_neg hitems, hfile] at h
          have hlast := ((if_neg hscript).trans (if_neg helf)).symm.trans h
          cases hlast

/-- A program that runs replaces the task, through all its interpreters. -/
theorem Runs.replaces (h : Runs m filename) (argv : Argv) (hitems : argv.items ≠ []) :
    ∃ n calls loaded table, syscallExecve m n filename argv = .ok (some (.replaced calls loaded table)) ∧
      Replaces m ⟨filename, argv.texts⟩ calls loaded := by
  induction h generalizing argv with
  | @program filename c loaded table hfile helf hload htable =>
    refine ⟨1, [⟨filename, argv.texts⟩], loaded, table, ?_, rfl, List.isChain_singleton _, _, rfl, hload⟩
    rw [syscallExecve_elf hitems hfile helf, execElf, hload, Exec.ok_bind]
    change (m.table.syscallExecveFiles m.alloc m.stdin m.stdout m.stderr m.duplicated >>= _) >>= _ = _
    rw [htable]
    rfl
  | @script filename c hfile hscript hline _ ih =>
    have heq : (⟨arg1 (c.take 255), (injectedArgv (c.take 255) filename argv).texts⟩ : Call) =
        ⟨interpreter c, interpreterArgs c ⟨filename, argv.texts⟩⟩ := (next_eq_iff hscript.2).mpr hline
    have hinterp : arg1 (c.take 255) = interpreter c := congrArg Call.filename heq
    obtain ⟨n, calls, loaded, table, hrun, hhead, hchain, hlast⟩ :=
      ih (injectedArgv (c.take 255) filename argv) (items_injectedArgv_ne_nil _ _ _)
    refine ⟨n + 1, ⟨filename, argv.texts⟩ :: calls, loaded, table, ?_, rfl, ?_, ?_⟩
    · rw [syscallExecve_script hitems hfile hscript, hinterp, hrun]
      rfl
    · rw [List.isChain_cons]
      refine ⟨fun next hnext => ?_, hchain⟩
      rw [hhead] at hnext
      cases hnext
      rw [hinterp] at heq
      exact ⟨c, hfile, hscript.2, heq⟩
    · obtain ⟨call, hcall, hload⟩ := hlast
      refine ⟨call, ?_, hload⟩
      rw [List.getLast?_cons, hcall]
      rfl

/-! ### The answer of a call for a script -/

theorem freeItemsIfNeeded_eq_iff (slots : List (Option Arg)) :
    freeItemsIfNeeded slots = slots ↔ ∀ a ∈ readItems slots, a.inHhdm = false := by
  induction slots with
  | nil => simp [freeItemsIfNeeded, readItems]
  | cons slot slots ih =>
    cases slot with
    | none => simp [freeItemsIfNeeded, readItems]
    | some a =>
      rw [freeItemsIfNeeded, readItems, List.cons_eq_cons, ih, List.forall_mem_cons]
      refine and_congr_left fun _ => ?_
      cases a.inHhdm <;> simp

theorem released_eq_iff : argv.released = some argv.slots ↔ UserArgs argv := by
  unfold Argv.released UserArgs Argv.items
  cases argv.inHhdm with
  | true => simp
  | false => simp [freeItemsIfNeeded_eq_iff]

theorem not_execvesWell_of_empty (h : argv.items = []) : ¬ExecvesWell m filename argv := by
  rintro ⟨n, answer, hrun, -⟩
  cases n with
  | zero => cases hrun
  | succ n =>
    rw [syscallExecve, if_pos h] at hrun
    cases hrun

/-- Only the two bytes of the magic are not taken for a script. -/
theorem execvesWell_short_iff (hitems : argv.items ≠ []) (hfile : m.files (fsSanitize m.cwd filename) = .content c)
    (hlen : c.length = 2) : ExecvesWell m filename argv ↔ UserArgs argv := by
  have hrun : ∀ n, syscallExecve m (n + 1) filename argv = .ok (some (.error errNoexec argv.released)) := by
    intro n
    rw [syscallExecve, if_neg hitems, hfile]
    exact (if_neg fun h => by omega).trans (if_neg fun h => by omega)
  rw [← released_eq_iff]
  constructor
  · rintro ⟨n, answer, hanswer, hmatch⟩
    cases n with
    | zero => cases hanswer
    | succ n =>
      rw [hrun] at hanswer
      cases hanswer
      exact hmatch
  · exact fun h => ⟨1, _, hrun 0, h⟩

theorem Runs.script_cases (h : Runs m filename) (hfile : m.files (fsSanitize m.cwd filename) = .content c)
    (hmagic : c.take 2 = magic) : LineReads c ∧ Runs m (interpreter c) := by
  cases h with
  | program hfile' helf _ _ =>
    rw [hfile] at hfile'
    cases hfile'
    have htake := congrArg (List.take 2) helf.2
    rw [List.take_take, min_eq_left (by omega), hmagic] at htake
    exact absurd htake (by decide)
  | script hfile' _ hline hnext =>
    rw [hfile] at hfile'
    cases hfile'
    exact ⟨hline, hnext⟩

theorem execvesWell_script_iff (hitems : argv.items ≠ []) (hfile : m.files (fsSanitize m.cwd filename) = .content c)
    (hscript : 2 < c.length ∧ c.take 2 = magic) :
    ExecvesWell m filename argv ↔ LineReads c ∧ Runs m (interpreter c) := by
  constructor
  · rintro ⟨n, answer, hanswer, hmatch⟩
    cases n with
    | zero => cases hanswer
    | succ n =>
      have hrun := hanswer
      rw [syscallExecve_script hitems hfile hscript] at hrun
      obtain ⟨answer', -, hafter⟩ := Exec.bind_ok_iff.mp hrun
      match answer', hafter with
      | some (.replaced calls' loaded' table'), hafter =>
        cases hafter
        exact ((runs_of_replaced hanswer).2 hmatch.chain).script_cases hfile hscript.2
  · rintro ⟨hline, hnext⟩
    obtain ⟨n, calls, loaded, table, hrun, hreplaces⟩ := (Runs.script hfile hscript hline hnext).replaces argv hitems
    exact ⟨n, _, hrun, hreplaces⟩

/-- A call for a script ends well exactly where it has arguments and either there is nothing
behind the magic, or the line is read whole and the chain of interpreters ends in a program. -/
theorem execvesWell_iff (m : Machine) (filename : Text) (argv : Argv) (c : Text)
    (hfile : m.files (fsSanitize m.cwd filename) = .content c) (hmagic : c.take 2 = magic) :
    ExecvesWell m filename argv ↔
      argv.items ≠ [] ∧ ((c.length = 2 ∧ UserArgs argv) ∨ (2 < c.length ∧ LineReads c ∧ Runs m (interpreter c))) := by
  have hlen : 2 ≤ c.length := by
    have h := congrArg List.length hmagic
    rw [List.length_take] at h
    change min 2 c.length = 2 at h
    omega
  by_cases hitems : argv.items = []
  · exact ⟨fun h => absurd h (not_execvesWell_of_empty hitems), fun h => absurd hitems h.1⟩
  rcases Nat.lt_or_ge 2 c.length with hlong | hshort
  · rw [execvesWell_script_iff hitems hfile ⟨hlong, hmagic⟩]
    constructor
    · exact fun h => ⟨hitems, .inr ⟨hlong, h⟩⟩
    · rintro ⟨-, ⟨hc, -⟩ | ⟨-, h⟩⟩
      · omega
      · exact h
  · rw [execvesWell_short_iff hitems hfile (by omega)]
    constructor
    · exact fun h => ⟨hitems, .inl ⟨by omega, h⟩⟩
    · rintro ⟨-, ⟨-, h⟩ | ⟨hc, -⟩⟩
      · exact h
      · omega

/-! ### Two scripts, and those without an end -/

/-- `"#!/b x\n"`, with an interpreter and an argument. -/
def goodScript : Text := magic ++ [47, 98, 32, 120, 10]

/-- `"#!/n\n"`, with an interpreter that does not exist. -/
def lostScript : Text := magic ++ [47, 110, 10]

/-- A program of one segment. -/
def program : Text := Elf.oneSegment 0 0x400000 120 120

/-- A machine with these two scripts in `/s` and `/l`, a program in `/b`, and a caller without
descriptors. -/
def sample : Machine where
  cwd := root
  files := fun path =>
    if path = [47, 115] then .content goodScript
    else if path = [47, 108] then .content lostScript
    else if path = [47, 98] then .content program
    else .missing
  space := Elf.staleSpace
  table := ⟨fun _ => none, taskInfoFilesAllocate⟩
  alloc := System.lowAllocator
  stdin := .opened 0
  stdout := .opened 0
  stderr := .opened 0
  duplicated := fun _ => true

/-- One argument, in the memory of the caller. -/
def oneArg : Argv := ⟨[some ⟨[115], false⟩], false⟩

theorem oneArg_items : oneArg.items ≠ [] := by decide

theorem sample_runs : Runs sample [47, 98] := by
  have hload : ∃ r, Elf.elfExecute sample.contents sample.space (fsSanitize sample.cwd [47, 98]) = .ok r ∧
      r.isSome = true := by decide +kernel
  have htable : ∃ s, sample.table.syscallExecveFiles sample.alloc sample.stdin sample.stdout sample.stderr
      sample.duplicated = .ok s ∧ True := by decide +kernel
  obtain ⟨r, hr, hsome⟩ := hload
  obtain ⟨s, hs, -⟩ := htable
  obtain ⟨loaded, rfl⟩ := Option.isSome_iff_exists.mp hsome
  exact .program (file_of_contents (by decide +kernel : _ = some program)) (by decide +kernel) hr hs

theorem execvesWell_sample : ExecvesWell sample [47, 115] oneArg := by
  have hfile : sample.files (fsSanitize sample.cwd [47, 115]) = .content goodScript :=
    file_of_contents (by decide +kernel)
  have hline : LineReads goodScript := by
    unfold LineReads
    decide
  have hinterp : interpreter goodScript = [47, 98] := by decide
  refine (execvesWell_iff sample [47, 115] oneArg goodScript hfile (by decide)).mpr
    ⟨oneArg_items, .inr ⟨by decide, hline, ?_⟩⟩
  rw [hinterp]
  exact sample_runs

/-- The interpreter is missing, and instead of an error there is a failed assertion. -/
theorem lost_interpreter : syscallExecve sample 2 [47, 108] oneArg = .error .assertion ∧
    ¬ExecvesWell sample [47, 108] oneArg := by
  have hfile : sample.files (fsSanitize sample.cwd [47, 108]) = .content lostScript :=
    file_of_contents (by decide +kernel)
  have hinterp : interpreter lostScript = [47, 110] := by decide
  have hmissing : sample.contents (fsSanitize sample.cwd [47, 110]) = none := by decide +kernel
  refine ⟨Exec.eq_error_of_meets (by decide +kernel), fun h => ?_⟩
  have hruns := ((execvesWell_script_iff oneArg_items hfile (by decide)).mp h).2
  rw [hinterp] at hruns
  cases hruns with
  | program hc => exact not_content_of_absent hmissing hc
  | script hc => exact not_content_of_absent hmissing hc

/-- A script whose interpreter is itself: every call makes the next one. -/
theorem cycle_never_ends (hfile : m.files (fsSanitize m.cwd filename) = .content c)
    (hscript : 2 < c.length ∧ c.take 2 = magic) (hself : arg1 (c.take 255) = filename) (hitems : argv.items ≠ [])
    (n : ℕ) : syscallExecve m n filename argv = .ok none := by
  induction n generalizing argv with
  | zero => rfl
  | succ n ih =>
    rw [syscallExecve_script hitems hfile hscript, hself, ih (items_injectedArgv_ne_nil _ _ _)]
    rfl

end DualFuse.Syscalls.Scripts
