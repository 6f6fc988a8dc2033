import DualFuse.Library.Bytes
import DualFuse.Library.CString
import DualFuse.Multitasking.UserStack

/-! The loader of executables (`utility/elf.cpp`). A file is the list of its bytes; the buffer
that it is read into is as long, and a read beyond it is a fault. The pages of the new address
space are backed by frames, which keep what they held when they are handed out. Stores are
observed: one outside the pages of the segment being loaded, or beyond the user half, is a fault.
The tables behind the pages, the identifier of the task and its descriptors are left out. -/

namespace DualFuse.Utility.Elf

open Library Memory Multitasking

abbrev Content := List (BitVec 8)

/-- The number in the `n` bytes at offset `o`. -/
def field (c : Content) (o n : ℕ) : ℕ := Bytes.toNat ((c.drop o).take n)

def readAt (c : Content) (o n : ℕ) : Exec ℕ := if o + n ≤ c.length then .ok (field c o n) else .error .fault

/-- The string at offset `o`, without its terminator. -/
def readString (c : Content) (o : ℕ) : Exec Content :=
  if 0 ∈ c.drop o then .ok (CString.content (c.drop o)) else .error .fault

/-- `n` bytes from offset `o` on, as the source of a `memcpy`. -/
def readBytes (c : Content) (o n : ℕ) : Exec Content :=
  if n = 0 ∨ o + n ≤ c.length then .ok ((c.drop o).take n) else .error .fault

/-! ### Headers -/

/-- `Elf64_Ehdr`. -/
structure Ehdr where
  eType : ℕ
  eEntry : ℕ
  ePhoff : ℕ
  ePhentsize : ℕ
  ePhnum : ℕ

def ehdrAt (c : Content) : Ehdr where
  eType := field c 16 2
  eEntry := field c 24 8
  ePhoff := field c 32 8
  ePhentsize := field c 54 2
  ePhnum := field c 56 2

/-- The last field is `e_phnum`. -/
def readEhdr (c : Content) : Exec Ehdr := if 58 ≤ c.length then .ok (ehdrAt c) else .error .fault

/-- `Elf64_Phdr`, as `elfProcessLoad` reads it. -/
structure Phdr where
  pOffset : ℕ
  pVaddr : ℕ
  pFilesz : ℕ
  pMemsz : ℕ
  deriving DecidableEq

def phdrAt (c : Content) (o : ℕ) : Phdr where
  pOffset := field c (o + 8) 8
  pVaddr := field c (o + 16) 8
  pFilesz := field c (o + 32) 8
  pMemsz := field c (o + 40) 8

/-- The last field is `p_memsz`. -/
def readPhdr (c : Content) (o : ℕ) : Exec Phdr := if o + 48 ≤ c.length then .ok (phdrAt c o) else .error .fault

/-- Where the program headers lie in the file, in the order of the loops; `i * e_phentsize` is an
`int`. -/
def phdrOffsets (h : Ehdr) : List ℕ :=
  (List.range h.ePhnum).map fun i : ℕ => wrap (h.ePhoff + intToSize (wrapInt (i * h.ePhentsize)))

def elfCheckFile (c : Content) : Exec Bool := do
  if (← readAt c 0 1) ≠ 0x7F then return false
  if (← readAt c 1 1) ≠ 0x45 then return false
  if (← readAt c 2 1) ≠ 0x4C then return false
  if (← readAt c 3 1) ≠ 0x46 then return false
  if (← readAt c 4 1) ≠ 2 then return false
  if (← readAt c 18 2) ≠ 0x3E then return false
  return true

/-! ### The address space -/

/-- Where the tables keep the page of an address: the upper 16 bits do not count. -/
def slot (a : ℕ) : ℕ := a / pageSize % 2 ^ 36

/-- The pages with their frames, what the frames hold, and the frames that are still free, in the
order in which they are handed out. -/
structure Space where
  pages : ℕ → Option ℕ
  frames : ℕ → ℕ → BitVec 8
  free : List ℕ

namespace Space

/-- One round of the loop that maps the pages of a segment. -/
def mapPage (s : Space) (vaddr : ℕ) : Exec Space :=
  match s.pages (slot vaddr) with
  | some _ => .ok s
  | none =>
    match s.free with
    | [] => .error .halt
    | f :: free => .ok { s with pages := Function.update s.pages (slot vaddr) (some f), free := free }

def putByte (s : Space) (a : ℕ) (b : BitVec 8) : Space :=
  match s.pages (slot a) with
  | some f => { s with frames := Function.update s.frames f (Function.update (s.frames f) (a % pageSize) b) }
  | none => s

def putBytes : Space → ℕ → Content → Space
  | s, _, [] => s
  | s, a, b :: l => putBytes (s.putByte a b) (a + 1) l

end Space

/-- The end of the user half. -/
def userEnd : ℕ := 2 ^ 47

/-- The `n` bytes from `a` on are in the user half and in these pages. -/
def Inside (pages : List ℕ) (a n : ℕ) : Prop := ∀ i < n, a + i < userEnd ∧ (a + i) / pageSize * pageSize ∈ pages

instance (pages : List ℕ) (a n : ℕ) : Decidable (Inside pages a n) :=
  inferInstanceAs (Decidable (∀ i < n, _ ∧ _))

/-- A store of the loader while these are the pages of its segment. -/
def Space.store (s : Space) (pages : List ℕ) (a : ℕ) (l : Content) : Exec Space :=
  if Inside pages a l.length then .ok (s.putBytes a l) else .error .fault

/-! ### Loading -/

def pagesRequired (ph : Phdr) : ℕ := ceilingDivision (ph.pVaddr - ph.pVaddr / pageSize * pageSize + ph.pMemsz) 0x1000

/-- The addresses that the loop goes over. Its counter `j` is an `int`, which is negative after
2 ^ 31 rounds and then not below `pagesRequired`. -/
def segmentPages (base : ℕ) (ph : Phdr) : List ℕ :=
  (List.range (min (pagesRequired ph) (2 ^ 31))).map fun j : ℕ =>
    wrap (base + (ph.pVaddr / pageSize * pageSize + intToSize (wrapInt (j * 0x1000))))

def elfProcessLoad (s : Space) (ph : Phdr) (out : Content) (base : ℕ) : Exec Space := do
  let pages := segmentPages base ph
  let s ← run Space.mapPage s pages
  let data ← readBytes out ph.pOffset ph.pFilesz
  let s ← s.store pages (wrap (base + ph.pVaddr)) data
  if ph.pMemsz > ph.pFilesz then
    s.store pages (wrap (base + ph.pVaddr + ph.pFilesz)) (List.replicate (ph.pMemsz - ph.pFilesz) 0)
  else .ok s

def interpreterBase : ℕ := 0x100000000000

/-- The header is at offset `o`. -/
def loadInterpreterHeader (contents : Content) (s : Space) (o : ℕ) : Exec Space := do
  let pType ← readAt contents o 4
  if pType ≠ ptLoad then .ok s
  else
    let ph ← readPhdr contents o
    elfProcessLoad s ph contents interpreterBase

/-- The files, by path. -/
abbrev Files := Content → Option Content

def ptInterp : ℕ := 3
def etDyn : ℕ := 3

/-- A header of type `PT_INTERP`. The entry of the interpreter is returned. -/
def loadInterpreter (fs : Files) (s : Space) (interpreterFilename : Content) : Exec (Space × ℕ) :=
  match fs interpreterFilename with
  | none => .error .halt
  | some contents => do
    let eType ← readAt contents 16 2
    if eType ≠ etDyn then .error .halt
    else
      let h ← readEhdr contents
      let s ← run (loadInterpreterHeader contents) s (phdrOffsets h)
      .ok (s, h.eEntry)

/-- A round of the loop over the program headers, with `interpreterEntry`. -/
def loadHeader (fs : Files) (out : Content) (st : Space × ℕ) (o : ℕ) : Exec (Space × ℕ) := do
  let pType ← readAt out o 4
  if pType = ptInterp then
    let pOffset ← readAt out (o + 8) 8
    let interpreterFilename ← readString out pOffset
    loadInterpreter fs st.1 interpreterFilename
  else if pType ≠ ptLoad then .ok st
  else
    let ph ← readPhdr out o
    let s ← elfProcessLoad st.1 ph out 0
    .ok (s, st.2)

/-- The type of a header and, where the segment is loaded, its address, as `stackGenerateUser`
reads them. -/
def stackPhdr (out : Content) (o : ℕ) : Exec (ℕ × ℕ) := do
  let pType ← readAt out o 4
  if pType ≠ ptLoad then .ok (pType, 0)
  else
    let pVaddr ← readAt out (o + 16) 8
    .ok (pType, pVaddr)

def stackFields (out : Content) (h : Ehdr) : Exec ElfFields := do
  let phdrs ← (phdrOffsets h).mapM (stackPhdr out)
  .ok ⟨h.eType, h.eEntry, h.ePhoff, h.ePhentsize, h.ePhnum, phdrs⟩

/-- The address space, the address where the program starts, and what its stack is built from. -/
structure Loaded where
  space : Space
  entry : ℕ
  fields : ElfFields

/-- A file that has passed its check. -/
def elfLoad (fs : Files) (s : Space) (out : Content) : Exec Loaded := do
  let h ← readEhdr out
  let (s, interpreterEntry) ← run (loadHeader fs out) (s, 0) (phdrOffsets h)
  let fields ← stackFields out h
  .ok ⟨s, if interpreterEntry ≠ 0 then wrap (interpreterBase + interpreterEntry) else h.eEntry, fields⟩

/-- `none`: the file is refused. -/
def elfExecute (fs : Files) (s : Space) (filepath : Content) : Exec (Option Loaded) :=
  match fs filepath with
  | none => .ok none
  | some out => do
    let valid ← elfCheckFile out
    if !valid then .ok none
    else
      let loaded ← elfLoad fs s out
      .ok (some loaded)

end DualFuse.Utility.Elf
