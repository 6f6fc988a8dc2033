import DualFuse.Filesystems.Execve
import DualFuse.Filesystems.Paths
import DualFuse.Utility.Elf

/-! Scripts (`syscallExecve` of `syscalls/linux/syscalls_proc.c`). The call reads the start of the
file and, where it names an interpreter, calls itself with the interpreter's name and a new
argument array. The answer of that call is never handed on: whatever it is, an assertion fails
behind it. Arrays and strings are told apart by where they lie, since those of the kernel are
freed on the way; memory that is only leaked is left out. -/

namespace DualFuse.Syscalls.Scripts

open Library Utility Filesystems VfsPath

abbrev Text := List (BitVec 8)

def space : BitVec 8 := 32
def newline : BitVec 8 := 10

/-- `"#!"`. -/
def magic : Text := [35, 33]

/-- The magic of an ELF file. -/
def elfMagic : Text := [0x7F, 0x45, 0x4C, 0x46]

/-- `ERR(ENOENT)`. -/
def errNoent : ℕ := 2 ^ 64 - 2

/-- `ERR(ENOEXEC)`. -/
def errNoexec : ℕ := 2 ^ 64 - 8

/-! ### Arguments -/

/-- A string, and whether `IS_INSIDE_HHDM` holds of its address. -/
structure Arg where
  text : Text
  inHhdm : Bool
  deriving DecidableEq

def strdup (s : Text) : Arg := ⟨s, true⟩

/-- An argument array up to its end, with empty slots where it holds `NULL` before that. -/
structure Argv where
  slots : List (Option Arg)
  inHhdm : Bool
  deriving DecidableEq

/-- The strings before the first `NULL`. -/
def readItems : List (Option Arg) → List Arg
  | some a :: slots => a :: readItems slots
  | _ => []

/-- What is read of an array. -/
def Argv.items (argv : Argv) : List Arg := readItems argv.slots

def Argv.texts (argv : Argv) : List Text := argv.items.map Arg.text

def freeItemsIfNeeded : List (Option Arg) → List (Option Arg)
  | [] => []
  | none :: slots => none :: slots
  | some backing :: slots => (if backing.inHhdm then none else some backing) :: freeItemsIfNeeded slots

/-- The array after `freeItemsIfNeeded` and `freeArgvIfNeeded`, unless it is freed. -/
def Argv.released (argv : Argv) : Option (List (Option Arg)) :=
  if argv.inHhdm then none else some (freeItemsIfNeeded argv.slots)

/-! ### The first line -/

/-- The loop over the bytes that were read, from index `i` on: the bytes afterwards, and where
`arg2` points. -/
def scanLine : (i spaces : ℕ) → Text → Text × Option ℕ
  | _, _, [] => ([], none)
  | i, spaces, b :: rest =>
    if b = space then
      if spaces = 0 then (0 :: (scanLine (i + 1) (spaces + 1) rest).1, some (i + 1))
      else (b :: (scanLine (i + 1) (spaces + 1) rest).1, (scanLine (i + 1) (spaces + 1) rest).2)
    else if b = newline then (0 :: rest, none)
    else (b :: (scanLine (i + 1) spaces rest).1, (scanLine (i + 1) spaces rest).2)

/-- `buff` after the loop; it has 256 bytes, the rest of them zero. -/
def scanned (t : Text) : Text := (scanLine 0 0 t).1 ++ List.replicate (256 - t.length) 0

def arg1 (t : Text) : Text := CString.content ((scanned t).drop 2)

def arg2 (t : Text) : Option Text := (scanLine 0 0 t).2.map fun i => CString.content ((scanned t).drop i)

/-- `injectedArgv`: where `arg2` is the empty string its slot stays `NULL`. -/
def injectedArgv (t : Text) (filename : Text) (argv : Argv) : Argv where
  slots := some (strdup (arg1 t)) :: ((arg2 t).elim [] fun a => [if a = [] then none else some (strdup a)]) ++
    some (strdup filename) :: argv.items.tail.map some
  inHhdm := true

/-! ### The call -/

/-- What opening and reading a file comes to. -/
inductive Opened where
  | missing
  | unreadable (ret : ℕ)
  | content (c : Text)

/-- The caller, the files, and what the loader is given. -/
structure Machine where
  cwd : PathName
  files : PathName → Opened
  space : Elf.Space
  table : TaskFiles
  alloc : Allocator
  stdin : OpenAnswer
  stdout : OpenAnswer
  stderr : OpenAnswer
  duplicated : ℕ → Bool

namespace Machine

/-- The files as the loader opens them. -/
def contents (m : Machine) (path : PathName) : Option Text :=
  match m.files path with
  | .content c => some c
  | _ => none

end Machine

/-- A program that is asked to run, with its arguments. -/
structure Call where
  filename : Text
  args : List Text
  deriving DecidableEq

/-- `error`: what is returned, and what the caller's array holds then. `replaced`: the calls on
the way to the program that takes the place of the task, the loaded program, and its descriptors. -/
inductive Answer where
  | error (ret : ℕ) (argv : Option (List (Option Arg)))
  | replaced (calls : List Call) (loaded : Elf.Loaded) (table : TaskFiles)

/-- From the copy of the arguments on, where the file is an ELF file. -/
def execElf (m : Machine) (filename : Text) (argv : Argv) : Exec Answer := do
  match ← Elf.elfExecute m.contents m.space (fsSanitize m.cwd filename) with
  | none => .ok (.error errNoent argv.released)
  | some loaded =>
    let table ← m.table.syscallExecveFiles m.alloc m.stdin m.stdout m.stderr m.duplicated
    .ok (.replaced [⟨filename, argv.texts⟩] loaded table)

/-- The call behind the recursive one, `assert(false)`. -/
def afterRecursion (call : Call) : Option Answer → Exec (Option Answer)
  | none => .ok none
  | some (.error _ _) => .error .assertion
  | some (.replaced calls loaded table) => .ok (some (.replaced (call :: calls) loaded table))

/-- `none`: not finished within this many nested calls. -/
def syscallExecve (m : Machine) : ℕ → Text → Argv → Exec (Option Answer)
  | 0, _, _ => .ok none
  | fuel + 1, filename, argv =>
    if argv.items = [] then .error .assertion
    else
      match m.files (fsSanitize m.cwd filename) with
      | .missing => .ok (some (.error errNoent (some argv.slots)))
      | .unreadable ret => .ok (some (.error ret (some argv.slots)))
      | .content c =>
        if 2 < c.length ∧ c.take 2 = magic then do
          let answer ← syscallExecve m fuel (arg1 (c.take 255)) (injectedArgv (c.take 255) filename argv)
          afterRecursion ⟨filename, argv.texts⟩ answer
        else if 4 < c.length ∧ c.take 4 = elfMagic then do
          let answer ← execElf m filename argv
          .ok (some answer)
        else .ok (some (.error errNoexec argv.released))

/-! ### What the call is to do -/

def firstLine (c : Text) : Text := (c.drop 2).takeWhile (· ≠ newline)

/-- The interpreter that a script names, up to the first space. -/
def interpreter (c : Text) : Text := (firstLine c).takeWhile fun b => b ≠ space ∧ b ≠ 0

/-- What stands behind the first space; nothing, where there is no argument. -/
def argument (c : Text) : Text := (((firstLine c).dropWhile (· ≠ space)).drop 1).takeWhile (· ≠ 0)

/-- The arguments of the interpreter: its name, its argument, the script, and the arguments of
the script from index 1 on. -/
def interpreterArgs (c : Text) (script : Call) : List Text :=
  interpreter c :: (if argument c = [] then [] else [argument c]) ++ script.filename :: script.args.tail

/-- The second call runs the interpreter of the script that the first one is for. -/
def RunsInterpreter (m : Machine) (script next : Call) : Prop :=
  ∃ c, m.files (fsSanitize m.cwd script.filename) = .content c ∧ c.take 2 = magic ∧
    next = ⟨interpreter c, interpreterArgs c script⟩

/-- The task was replaced by the program at the end of the chain of interpreters. -/
structure Replaces (m : Machine) (first : Call) (calls : List Call) (loaded : Elf.Loaded) : Prop where
  head : calls.head? = some first
  chain : calls.IsChain (RunsInterpreter m)
  last : ∃ call, calls.getLast? = some call ∧
    Elf.elfExecute m.contents m.space (fsSanitize m.cwd call.filename) = .ok (some loaded)

/-- The call ends, and either replaces the task or returns an error with the arguments as they
were. -/
def ExecvesWell (m : Machine) (filename : Text) (argv : Argv) : Prop :=
  ∃ fuel answer, syscallExecve m fuel filename argv = .ok (some answer) ∧
    match answer with
    | .error _ after => after = some argv.slots
    | .replaced calls loaded _ => Replaces m ⟨filename, argv.texts⟩ calls loaded

/-! ### When it does -/

/-- The part of the first line that is read names the same interpreter and argument as the whole
line, and something stands behind its first space. -/
def LineReads (c : Text) : Prop :=
  interpreter (c.take 255) = interpreter c ∧ argument (c.take 255) = argument c ∧
    (space ∈ firstLine (c.take 255) → argument c ≠ [])

/-- The chain of interpreters from this file on ends with a program that the loader takes. -/
inductive Runs (m : Machine) : Text → Prop where
  | program {filename c : Text} {loaded : Elf.Loaded} {table : TaskFiles}
      (file : m.files (fsSanitize m.cwd filename) = .content c) (elf : 4 < c.length ∧ c.take 4 = elfMagic)
      (loads : Elf.elfExecute m.contents m.space (fsSanitize m.cwd filename) = .ok (some loaded))
      (descriptors : m.table.syscallExecveFiles m.alloc m.stdin m.stdout m.stderr m.duplicated = .ok table) :
      Runs m filename
  | script {filename c : Text} (file : m.files (fsSanitize m.cwd filename) = .content c)
      (shebang : 2 < c.length ∧ c.take 2 = magic) (line : LineReads c) (next : Runs m (interpreter c)) :
      Runs m filename

/-- No argument, and not the array itself, lies where the kernel frees. -/
def UserArgs (argv : Argv) : Prop := argv.inHhdm = false ∧ ∀ a ∈ argv.items, a.inHhdm = false

end DualFuse.Syscalls.Scripts
