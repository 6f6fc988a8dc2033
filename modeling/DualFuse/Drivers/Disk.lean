import DualFuse.Library.Tiling
import DualFuse.Memory.Mmap

/-! Disk transfers (`drivers/disk.cpp`, `drivers/ahci.cpp`). A request is cut into chunks, each
chunk is one command, and a command describes its part of the buffer by the entries of a table
of 256 bytes. Which slot gets free for a command and whether the port gets ready for it are
answers of the hardware; nothing is reported to the caller when one of them fails. -/

namespace DualFuse.Drivers.Disk

open Library Memory

def sectorSize : ℕ := 512

/-- The most sectors of a chunk. -/
def chunkSectors : ℕ := 65536

/-- The bytes that one entry describes at most, and the sectors that these are. -/
def entryBytes : ℕ := 4194304

def entrySectors : ℕ := 8192

/-- `CEILING_DIVISION((sectors) * 512, 4194304)` in 32 bits. -/
def ahciCalcPrdt (sectors : ℕ) : ℕ := (sectors * 512 + entryBytes - 1) % 2 ^ 32 / entryBytes

/-- `HBA_PRDT_ENTRY`. -/
structure Entry where
  dba : BitVec 32
  dbau : BitVec 32
  dbc : BitVec 22
  i : Bool

/-- The fields of `FIS_REG_H2D` that are set, as bytes. -/
structure Fis where
  command : ℕ
  lba0 : ℕ
  lba1 : ℕ
  lba2 : ℕ
  lba3 : ℕ
  lba4 : ℕ
  lba5 : ℕ
  countl : ℕ
  counth : ℕ

/-- A command that was issued: its header, the entries of its table, and the FIS. -/
structure Command where
  slot : ℕ
  w : Bool
  prdtl : ℕ
  prdt : List Entry
  fis : Fis

/-- Whether a controller with a disk is found, and for each command in turn the slot that
`ahci_cmd_find` gives and whether the port gets ready. -/
structure Hardware where
  found : Bool
  slot : ℕ → Option ℕ
  portReady : ℕ → Bool

section Transfer
variable (hhdmOffset : ℕ)

/-- An entry for `bytes` at `buff`. -/
def Entry.of (buff : Word) (bytes : ℕ) : Entry :=
  let targPhys := virtualToPhysical hhdmOffset buff
  ⟨targPhys.setWidth 32, (targPhys >>> 32).setWidth 32, BitVec.ofNat 22 (bytes - 1), true⟩

/-- `ahci_setup_PRDT` with `n` entries before the last one. The second result is what is left in
the caller's `count`. -/
def ahciSetupPrdt : ℕ → Word → ℕ → List Entry × ℕ
  | 0, buff, count => ([.of hhdmOffset buff (count <<< 9)], count)
  | n + 1, buff, count =>
    let (entries, left) := ahciSetupPrdt n (buff + BitVec.ofNat 64 entryBytes) (count - entrySectors)
    (.of hhdmOffset buff entryBytes :: entries, left)

def ataCmdReadDmaEx : ℕ := 0x25

def ataCmdWriteDmaEx : ℕ := 0x35

/-- The FIS that `ahci_read` and `ahci_write` set up. -/
def Fis.of (command startl starth count : ℕ) : Fis where
  command := command
  lba0 := startl % 256
  lba1 := startl / 2 ^ 8 % 256
  lba2 := startl / 2 ^ 16 % 256
  lba3 := startl / 2 ^ 24 % 256
  lba4 := starth % 256
  lba5 := starth / 2 ^ 8 % 256
  countl := count % 256
  counth := count / 2 ^ 8 % 256

variable (hw : Hardware)

/-- The table is set up with a copy of `count`. -/
def ahciRead (i : ℕ) (startl starth count : ℕ) (buff : Word) : Option Command :=
  (hw.slot i).bind fun slot =>
    let table := ahciSetupPrdt hhdmOffset (ahciCalcPrdt count - 1) buff count
    if hw.portReady i then
      some ⟨slot, false, ahciCalcPrdt count, table.1, .of ataCmdReadDmaEx startl starth count⟩
    else none

/-- The table is set up with `count` itself. -/
def ahciWrite (i : ℕ) (startl starth count : ℕ) (buff : Word) : Option Command :=
  (hw.slot i).bind fun slot =>
    let table := ahciSetupPrdt hhdmOffset (ahciCalcPrdt count - 1) buff count
    if hw.portReady i then
      some ⟨slot, true, ahciCalcPrdt count, table.1, .of ataCmdWriteDmaEx startl starth table.2⟩
    else none

/-- `disk_bytes`, as the `i`th of a request. Where no disk is found it issues no command. -/
def diskBytes (i : ℕ) (target : Word) (lba count : ℕ) (write : Bool) : List Command :=
  if hw.found then
    ((if write then ahciWrite else ahciRead) hhdmOffset hw i lba 0 count target).toList
  else []

/-- `disk_bytes_max`. The start of a chunk is converted to `uint32_t`. -/
def diskBytesMax (target : Word) (lba count : ℕ) (write : Bool) : List Command :=
  let chunks := count / chunkSectors
  let remainder := count % chunkSectors
  let chunk (i sectors : ℕ) : List Command :=
    diskBytes hhdmOffset hw i (target + BitVec.ofNat 64 (i * chunkSectors * sectorSize))
      ((lba + i * chunkSectors) % 2 ^ 32) sectors write
  (List.range chunks).flatMap (fun i => chunk i chunkSectors) ++ if remainder = 0 then [] else chunk chunks remainder

def getDiskBytes (target : Word) (lba count : ℕ) : List Command := diskBytesMax hhdmOffset hw target lba count false

def setDiskBytes (target : Word) (lba count : ℕ) : List Command := diskBytesMax hhdmOffset hw target lba count true

end Transfer

/-! ### What a command says to the disk -/

/-- The first sector of a command. -/
def Fis.lba (f : Fis) : ℕ :=
  f.lba0 + f.lba1 * 2 ^ 8 + f.lba2 * 2 ^ 16 + f.lba3 * 2 ^ 24 + f.lba4 * 2 ^ 32 + f.lba5 * 2 ^ 40

/-- The 16 bits of the count. -/
def Fis.field (f : Fis) : ℕ := f.countl + f.counth * 256

/-- The number of sectors of a command: a count of zero stands for 65536. -/
def Fis.sectors (f : Fis) : ℕ := if f.field = 0 then 65536 else f.field

/-- The addresses of the bytes of an entry. -/
def Entry.addresses (e : Entry) : List Word :=
  (List.range (e.dbc.toNat + 1)).map fun k => (e.dbau ++ e.dba) + BitVec.ofNat 64 k

/-- The addresses of `n` bytes of a buffer. -/
def physical (hhdmOffset : ℕ) (buffer : Word) (n : ℕ) : List Word :=
  (List.range n).map fun k => virtualToPhysical hhdmOffset (buffer + BitVec.ofNat 64 k)

def Command.places (c : Command) : List ℕ := List.range' c.fis.lba c.fis.sectors

/-- `sizeof(HBA_CMD_TBL)` with the entries of the command. -/
def Command.tableBytes (c : Command) : ℕ := 128 + c.prdt.length * 16

/-- Each command describes the next part of the buffer. -/
def Describes (hhdmOffset : ℕ) : Word → List Command → Prop
  | _, [] => True
  | buffer, c :: cmds =>
    c.prdt.flatMap Entry.addresses = physical hhdmOffset buffer (512 * c.fis.sectors) ∧
      Describes hhdmOffset (buffer + BitVec.ofNat 64 (512 * c.fis.sectors)) cmds

/-- What the commands of a request are for. -/
structure Covers (hhdmOffset : ℕ) (target : Word) (lba count : ℕ) (write : Bool) (cmds : List Command) : Prop where
  tiles : cmds.flatMap Command.places = List.range' lba count
  describes : Describes hhdmOffset target cmds
  direction : ∀ c ∈ cmds, c.w = write
  table : ∀ c ∈ cmds, c.prdt.length ≤ 8 ∧ c.tableBytes ≤ 256

/-! ### One command -/

section Entries
variable {hhdmOffset : ℕ} {buff : Word} {n count : ℕ}

theorem virtualToPhysical_add (hhdmOffset : ℕ) (buff x : Word) :
    virtualToPhysical hhdmOffset (buff + x) = virtualToPhysical hhdmOffset buff + x := by
  unfold virtualToPhysical
  bv_omega

theorem physical_add (hhdmOffset : ℕ) (buff : Word) (m n : ℕ) : physical hhdmOffset buff (m + n) =
    physical hhdmOffset buff m ++ physical hhdmOffset (buff + BitVec.ofNat 64 m) n := by
  unfold physical
  rw [List.range_add, List.map_append, List.map_map]
  congr 2
  funext k
  simp [BitVec.add_assoc, BitVec.ofNat_add]

theorem split_address (a : Word) : (a >>> 32).setWidth 32 ++ a.setWidth 32 = a := by
  apply BitVec.eq_of_getLsbD_eq
  intro i hi
  rw [BitVec.getLsbD_append]
  by_cases h : i < 32
  · simp [h]
  · simp [h, show 32 + (i - 32) = i by omega, show i - 32 < 32 by omega]

theorem entry_addresses {bytes : ℕ} (hpos : 0 < bytes) (hbytes : bytes ≤ 2 ^ 22) :
    (Entry.of hhdmOffset buff bytes).addresses = physical hhdmOffset buff bytes := by
  unfold Entry.addresses physical Entry.of
  simp only [split_address, virtualToPhysical_add, BitVec.toNat_ofNat]
  rw [Nat.mod_eq_of_lt (by omega), Nat.sub_add_cancel hpos]

/-- The entries describe the whole buffer of a command, and the last one its remaining sectors. -/
theorem ahciSetupPrdt_spec (hhdmOffset : ℕ) (buff : Word) (hlow : n * entrySectors < count)
    (hhigh : count ≤ (n + 1) * entrySectors) :
    (ahciSetupPrdt hhdmOffset n buff count).1.flatMap Entry.addresses = physical hhdmOffset buff (512 * count) ∧
      (ahciSetupPrdt hhdmOffset n buff count).1.length = n + 1 ∧
        (ahciSetupPrdt hhdmOffset n buff count).2 = count - n * entrySectors := by
  induction n generalizing buff count with
  | zero =>
    have hshift : count <<< 9 = 512 * count := by
      rw [Nat.shiftLeft_eq, Nat.mul_comm]
    rw [ahciSetupPrdt, hshift]
    simp only [entrySectors] at hlow hhigh
    refine ⟨?_, rfl, by simp⟩
    rw [List.flatMap_singleton]
    exact entry_addresses (by omega) (by omega)
  | succ n ih =>
    rw [Nat.succ_mul] at hlow hhigh
    obtain ⟨haddresses, hlength, hleft⟩ := ih (buff + BitVec.ofNat 64 entryBytes)
      (show n * entrySectors < count - entrySectors by omega) (by omega)
    have hcount : 512 * count = entryBytes + 512 * (count - entrySectors) := by
      simp only [entryBytes, entrySectors] at hlow ⊢
      omega
    refine ⟨?_, ?_, ?_⟩
    · rw [ahciSetupPrdt, List.flatMap_cons, haddresses, entry_addresses (by decide) (by decide), hcount, physical_add]
    · rw [ahciSetupPrdt, List.length_cons, hlength]
    · rw [ahciSetupPrdt, hleft, Nat.succ_mul]
      omega

theorem ahciCalcPrdt_bounds (hpos : 0 < count) (hcount : count ≤ chunkSectors) :
    (ahciCalcPrdt count - 1) * entrySectors < count ∧ count ≤ (ahciCalcPrdt count - 1 + 1) * entrySectors ∧
      ahciCalcPrdt count - 1 + 1 ≤ 8 := by
  unfold ahciCalcPrdt
  simp only [chunkSectors, entryBytes, entrySectors] at hcount ⊢
  omega

end Entries

section Fis
variable {command startl count : ℕ}

theorem lba_of (h : startl < 2 ^ 32) : (Fis.of command startl 0 count).lba = startl := by
  simp only [Fis.lba, Fis.of]
  omega

theorem field_of : (Fis.of command startl 0 count).field = count % 65536 := by
  simp only [Fis.field, Fis.of]
  omega

/-- The field of a count up to 65536 is read as this count. -/
theorem sectors_of (hpos : 0 < count) (hcount : count ≤ chunkSectors) :
    (Fis.of command startl 0 count).sectors = count := by
  rw [Fis.sectors, field_of]
  rcases Nat.lt_or_eq_of_le hcount with hlt | rfl
  · rw [Nat.mod_eq_of_lt (show count < 65536 from hlt), if_neg (by omega)]
  · rfl

end Fis

/-- The command describes its sectors, and its table has room for its entries. -/
structure Command.Right (hhdmOffset : ℕ) (buff : Word) (count : ℕ) (write : Bool) (c : Command) : Prop where
  addresses : c.prdt.flatMap Entry.addresses = physical hhdmOffset buff (512 * count)
  direction : c.w = write
  table : c.prdt.length ≤ 8 ∧ c.tableBytes ≤ 256

section Commands
variable {hhdmOffset : ℕ} {hw : Hardware} {i startl count : ℕ} {buff : Word} {c : Command}

/-- The hardware lets the `i`th command be issued. -/
def Hardware.Issues (hw : Hardware) (i : ℕ) : Prop := hw.found = true ∧ hw.slot i ≠ none ∧ hw.portReady i = true

/-- What is left for the FIS of a command of `count` sectors, which is written with what is left
of its count behind the table. -/
def fisSectors (write : Bool) (count : ℕ) : ℕ :=
  if write then count - (ahciCalcPrdt count - 1) * entrySectors else count

theorem fisSectors_le (write : Bool) (count : ℕ) : fisSectors write count ≤ count := by
  unfold fisSectors
  split_ifs
  · exact Nat.sub_le _ _
  · exact le_rfl

theorem fisSectors_eq_iff {write : Bool} (hpos : 0 < count) (hcount : count ≤ chunkSectors) :
    fisSectors write count = count ↔ write = true → count ≤ entrySectors := by
  have := ahciCalcPrdt_bounds hpos hcount
  cases write with
  | false => simp [fisSectors]
  | true =>
    simp only [fisSectors, if_true, true_implies, entrySectors] at this ⊢
    omega

theorem ahciRead_eq {slot : ℕ} (hslot : hw.slot i = some slot) (hready : hw.portReady i = true) :
    ahciRead hhdmOffset hw i startl 0 count buff = some ⟨slot, false, ahciCalcPrdt count,
      (ahciSetupPrdt hhdmOffset (ahciCalcPrdt count - 1) buff count).1, .of ataCmdReadDmaEx startl 0 count⟩ := by
  simp only [ahciRead, hslot, hready, Option.bind_some, if_true]

theorem ahciWrite_eq {slot : ℕ} (hslot : hw.slot i = some slot) (hready : hw.portReady i = true) :
    ahciWrite hhdmOffset hw i startl 0 count buff = some ⟨slot, true, ahciCalcPrdt count,
      (ahciSetupPrdt hhdmOffset (ahciCalcPrdt count - 1) buff count).1,
      .of ataCmdWriteDmaEx startl 0 (ahciSetupPrdt hhdmOffset (ahciCalcPrdt count - 1) buff count).2⟩ := by
  simp only [ahciWrite, hslot, hready, Option.bind_some, if_true]

/-- A command is issued only where the hardware lets it. -/
theorem diskBytes_of_not_issues {write : Bool} (h : ¬hw.Issues i) :
    diskBytes hhdmOffset hw i buff startl count write = [] := by
  unfold diskBytes
  by_cases hfound : hw.found = true
  · rw [if_pos hfound]
    cases hslot : hw.slot i with
    | none => cases write <;> simp [ahciRead, ahciWrite, hslot]
    | some slot =>
      have hready : ¬hw.portReady i = true := fun hready => h ⟨hfound, by simp [hslot], hready⟩
      cases write <;> simp [ahciRead, ahciWrite, hslot, hready]
  · rw [if_neg hfound]

theorem Command.right_of {slot prdtl : ℕ} {entries : List Entry} {fis : Fis} {write : Bool}
    (haddresses : entries.flatMap Entry.addresses = physical hhdmOffset buff (512 * count))
    (hlength : entries.length ≤ 8) :
    Command.Right hhdmOffset buff count write ⟨slot, write, prdtl, entries, fis⟩ where
  addresses := haddresses
  direction := rfl
  table := by
    have hbytes : 128 + entries.length * 16 ≤ 256 := by omega
    exact ⟨hlength, hbytes⟩

theorem diskBytes_of_issues (hhdmOffset : ℕ) (buff : Word) (hpos : 0 < count) (hcount : count ≤ chunkSectors)
    (hstart : startl < 2 ^ 32) (write : Bool) (h : hw.Issues i) :
    ∃ c, diskBytes hhdmOffset hw i buff startl count write = [c] ∧ c.fis.lba = startl ∧
      c.fis.sectors = fisSectors write count ∧ c.Right hhdmOffset buff count write := by
  obtain ⟨hlow, hhigh, hmost⟩ := ahciCalcPrdt_bounds hpos hcount
  obtain ⟨haddresses, hlength, hleft⟩ := ahciSetupPrdt_spec hhdmOffset buff hlow hhigh
  obtain ⟨hfound, hslot, hready⟩ := h
  obtain ⟨slot, hslot⟩ := Option.ne_none_iff_exists'.mp hslot
  have hentries := hlength.trans_le hmost
  cases write with
  | false =>
    rw [diskBytes, if_pos hfound, if_neg Bool.false_ne_true, ahciRead_eq hslot hready, Option.toList_some]
    generalize ahciSetupPrdt hhdmOffset (ahciCalcPrdt count - 1) buff count = table at haddresses hentries
    exact ⟨_, rfl, lba_of hstart, sectors_of hpos hcount, Command.right_of haddresses hentries⟩
  | true =>
    rw [diskBytes, if_pos hfound, if_pos rfl, ahciWrite_eq hslot hready, Option.toList_some]
    have hsectors : (Fis.of ataCmdWriteDmaEx startl 0 (fisSectors true count)).sectors = fisSectors true count := by
      apply sectors_of
      · rw [fisSectors, if_pos rfl]
        omega
      · exact (fisSectors_le true count).trans hcount
    have hrest : (ahciSetupPrdt hhdmOffset (ahciCalcPrdt count - 1) buff count).2 = fisSectors true count := by
      rw [hleft, fisSectors, if_pos rfl]
    rw [hrest]
    generalize ahciSetupPrdt hhdmOffset (ahciCalcPrdt count - 1) buff count = table at haddresses hentries
    generalize fisSectors true count = left at hsectors
    exact ⟨_, rfl, lba_of hstart, hsectors, Command.right_of haddresses hentries⟩

end Commands

/-! ### A request -/

/-- The number of chunks of a request, and the sectors of each. -/
def chunksOf (count : ℕ) : ℕ := (count + (chunkSectors - 1)) / chunkSectors

def sectorsOf (count i : ℕ) : ℕ := min chunkSectors (count - i * chunkSectors)

section Requests
variable {hhdmOffset : ℕ} {hw : Hardware} {target : Word} {lba count i n : ℕ} {write : Bool}

theorem before_sectorsOf (count n : ℕ) : Places.before (sectorsOf count) n = min count (n * chunkSectors) := by
  induction n with
  | zero => simp
  | succ n ih =>
    rw [Places.before_succ, ih, sectorsOf, Nat.succ_mul]
    omega

theorem before_chunksOf (count : ℕ) : Places.before (sectorsOf count) (chunksOf count) = count := by
  rw [before_sectorsOf, chunksOf]
  simp only [chunkSectors]
  omega

/-- A chunk of the request is not empty and starts inside it. -/
theorem sectorsOf_bounds (hi : i < chunksOf count) : 0 < sectorsOf count i ∧ sectorsOf count i ≤ chunkSectors ∧
    Places.before (sectorsOf count) i = i * chunkSectors := by
  rw [before_sectorsOf]
  simp only [chunksOf, sectorsOf, chunkSectors] at hi ⊢
  omega

/-- The command of a chunk. -/
def chunk (hhdmOffset : ℕ) (hw : Hardware) (target : Word) (lba count : ℕ) (write : Bool) (i : ℕ) : List Command :=
  diskBytes hhdmOffset hw i (target + BitVec.ofNat 64 (i * chunkSectors * sectorSize))
    ((lba + i * chunkSectors) % 2 ^ 32) (sectorsOf count i) write

theorem diskBytesMax_eq : diskBytesMax hhdmOffset hw target lba count write =
    (List.range (chunksOf count)).flatMap (chunk hhdmOffset hw target lba count write) := by
  unfold diskBytesMax
  have hwhole : (List.range (count / chunkSectors)).flatMap (fun i => diskBytes hhdmOffset hw i
      (target + BitVec.ofNat 64 (i * chunkSectors * sectorSize)) ((lba + i * chunkSectors) % 2 ^ 32)
      chunkSectors write) =
      (List.range (count / chunkSectors)).flatMap (chunk hhdmOffset hw target lba count write) := by
    apply List.flatMap_congr
    intro i hi
    have hsize : sectorsOf count i = chunkSectors := by
      have := List.mem_range.mp hi
      simp only [sectorsOf, chunkSectors] at this ⊢
      omega
    rw [chunk, hsize]
  dsimp only
  rw [hwhole]
  by_cases hr : count % chunkSectors = 0
  · have hn : chunksOf count = count / chunkSectors := by
      simp only [chunksOf, chunkSectors] at hr ⊢
      omega
    rw [if_pos hr, List.append_nil, hn]
  · have hn : chunksOf count = count / chunkSectors + 1 := by
      simp only [chunksOf, chunkSectors] at hr ⊢
      omega
    have hsize : sectorsOf count (count / chunkSectors) = count % chunkSectors := by
      simp only [sectorsOf, chunkSectors] at hr ⊢
      omega
    rw [if_neg hr, hn, List.range_succ, List.flatMap_append, List.flatMap_singleton, chunk, hsize]

/-- What has to be so for the command of a chunk to cover it. -/
structure ChunkGood (hw : Hardware) (lba count : ℕ) (write : Bool) (i : ℕ) : Prop where
  issues : hw.Issues i
  start : lba + i * chunkSectors < 2 ^ 32
  size : write = true → sectorsOf count i ≤ entrySectors

theorem chunk_places_length (hi : i < chunksOf count) :
    ((chunk hhdmOffset hw target lba count write i).flatMap Command.places).length ≤ sectorsOf count i := by
  obtain ⟨hpos, hmost, -⟩ := sectorsOf_bounds hi
  by_cases h : hw.Issues i
  · obtain ⟨c, hc, -, hsectors, -⟩ := diskBytes_of_issues hhdmOffset
      (target + BitVec.ofNat 64 (i * chunkSectors * sectorSize)) hpos hmost
      (Nat.mod_lt (lba + i * chunkSectors) (by norm_num : 0 < 2 ^ 32)) write h
    rw [chunk, hc, List.flatMap_singleton, Command.places, List.length_range', hsectors]
    exact fisSectors_le _ _
  · rw [chunk, diskBytes_of_not_issues h]
    exact Nat.zero_le _

theorem chunk_places_iff (hi : i < chunksOf count) :
    (chunk hhdmOffset hw target lba count write i).flatMap Command.places =
        List.range' (lba + i * chunkSectors) (sectorsOf count i) ↔ ChunkGood hw lba count write i := by
  obtain ⟨hpos, hmost, -⟩ := sectorsOf_bounds hi
  by_cases h : hw.Issues i
  · obtain ⟨c, hc, hlba, hsectors, -⟩ := diskBytes_of_issues hhdmOffset
      (target + BitVec.ofNat 64 (i * chunkSectors * sectorSize)) hpos hmost
      (Nat.mod_lt (lba + i * chunkSectors) (by norm_num : 0 < 2 ^ 32)) write h
    rw [chunk, hc, List.flatMap_singleton, Command.places, hlba, hsectors, List.range'_inj]
    constructor
    · rintro ⟨hsize, hstart⟩
      have hsize' := (fisSectors_eq_iff hpos hmost).mp hsize
      rcases hstart with hstart | hstart
      · omega
      · exact ⟨h, by rw [← hstart]; exact Nat.mod_lt _ (by norm_num), hsize'⟩
    · intro hgood
      exact ⟨(fisSectors_eq_iff hpos hmost).mpr hgood.size, .inr (Nat.mod_eq_of_lt hgood.start)⟩
  · rw [chunk, diskBytes_of_not_issues h]
    refine iff_of_false (fun heq => ?_) fun hgood => h hgood.issues
    have hlength := congrArg List.length heq
    rw [List.length_range'] at hlength
    exact absurd hlength (by simpa using hpos.ne)

/-- The command of a chunk that is good. -/
theorem chunk_good (hhdmOffset : ℕ) (target : Word) (hi : i < chunksOf count) (h : ChunkGood hw lba count write i) :
    ∃ c, chunk hhdmOffset hw target lba count write i = [c] ∧ c.fis.sectors = sectorsOf count i ∧
      c.Right hhdmOffset (target + BitVec.ofNat 64 (i * chunkSectors * sectorSize)) (sectorsOf count i) write := by
  obtain ⟨hpos, hmost, -⟩ := sectorsOf_bounds hi
  obtain ⟨c, hc, -, hsectors, hright⟩ := diskBytes_of_issues hhdmOffset
    (target + BitVec.ofNat 64 (i * chunkSectors * sectorSize)) hpos hmost
    (Nat.mod_lt (lba + i * chunkSectors) (by norm_num : 0 < 2 ^ 32)) write h.issues
  exact ⟨c, hc, hsectors.trans ((fisSectors_eq_iff hpos hmost).mpr h.size), hright⟩

theorem tiles_iff :
    (diskBytesMax hhdmOffset hw target lba count write).flatMap Command.places = List.range' lba count ↔
      ∀ i < chunksOf count, ChunkGood hw lba count write i := by
  have hmost : ∀ i < chunksOf count, ((chunk hhdmOffset hw target lba count write i).flatMap Command.places).length ≤
      sectorsOf count i := fun i hi => chunk_places_length hi
  have htiling := Tiling.flatMap_range_eq_iff lba hmost
  rw [before_chunksOf] at htiling
  rw [diskBytesMax_eq, List.flatMap_assoc, htiling]
  apply forall₂_congr
  intro i hi
  rw [(sectorsOf_bounds hi).2.2]
  exact chunk_places_iff hi

/-- The commands from a chunk on describe what is left of the buffer. -/
theorem describes_from (hhdmOffset : ℕ) (target : Word) (h : ∀ i < chunksOf count, ChunkGood hw lba count write i)
    (hn : i + n = chunksOf count) :
    Describes hhdmOffset (target + BitVec.ofNat 64 (i * chunkSectors * sectorSize))
      ((List.range' i n).flatMap (chunk hhdmOffset hw target lba count write)) := by
  induction n generalizing i with
  | zero => trivial
  | succ n ih =>
    obtain ⟨c, hc, hsectors, hright⟩ := chunk_good hhdmOffset target (by omega : i < _) (h i (by omega))
    rw [List.range'_succ, List.flatMap_cons, hc, List.singleton_append, Describes, hsectors]
    refine ⟨hright.addresses, ?_⟩
    cases n with
    | zero => trivial
    | succ n =>
      have hwhole : sectorsOf count i = chunkSectors := by
        have : i + 1 < chunksOf count := by omega
        simp only [chunksOf, sectorsOf, chunkSectors] at this ⊢
        omega
      have hnext := ih (show i + 1 + (n + 1) = chunksOf count by omega)
      have hbytes : (i + 1) * chunkSectors * sectorSize = i * chunkSectors * sectorSize + 512 * chunkSectors := by
        simp only [chunkSectors, sectorSize]
        omega
      rw [hbytes, BitVec.ofNat_add, ← BitVec.add_assoc] at hnext
      rw [hwhole]
      exact hnext

theorem covers_iff_chunks :
    Covers hhdmOffset target lba count write (diskBytesMax hhdmOffset hw target lba count write) ↔
      ∀ i < chunksOf count, ChunkGood hw lba count write i := by
  constructor
  · exact fun h => tiles_iff.mp h.tiles
  · intro h
    have hmem : ∀ c ∈ diskBytesMax hhdmOffset hw target lba count write, c.w = write ∧
        c.prdt.length ≤ 8 ∧ c.tableBytes ≤ 256 := by
      intro c hc
      rw [diskBytesMax_eq, List.mem_flatMap] at hc
      obtain ⟨i, hi, hc⟩ := hc
      have hi := List.mem_range.mp hi
      obtain ⟨c', hc', -, hright⟩ := chunk_good hhdmOffset target hi (h i hi)
      rw [hc', List.mem_singleton] at hc
      subst hc
      exact ⟨hright.direction, hright.table⟩
    constructor
    · exact tiles_iff.mpr h
    · have := describes_from hhdmOffset target h (Nat.zero_add _)
      rw [Nat.zero_mul, Nat.zero_mul, BitVec.add_zero, ← List.range_eq_range',
        ← diskBytesMax_eq] at this
      exact this
    · exact fun c hc => (hmem c hc).1
    · exact fun c hc => (hmem c hc).2

/-- The last chunk of a request starts at a sector that 32 bits hold. -/
def Addressable (lba count : ℕ) : Prop := lba + (chunksOf count - 1) * chunkSectors < 2 ^ 32

theorem chunks_good_iff (hlba : lba < 2 ^ 32) : (∀ i < chunksOf count, ChunkGood hw lba count write i) ↔
    (∀ i < chunksOf count, hw.Issues i) ∧ Addressable lba count ∧ (write = true → count ≤ entrySectors) := by
  unfold Addressable
  constructor
  · intro h
    refine ⟨fun i hi => (h i hi).issues, ?_, fun hwrite => ?_⟩
    · rcases Nat.eq_zero_or_pos (chunksOf count) with hzero | hpos
      · rw [hzero]
        omega
      · exact (h _ (by omega)).start
    · rcases Nat.eq_zero_or_pos count with rfl | hpos
      · exact Nat.zero_le _
      · have hfirst := (h 0 (by simp only [chunksOf, chunkSectors]; omega)).size hwrite
        simp only [sectorsOf, chunkSectors, entrySectors] at hfirst ⊢
        omega
  · rintro ⟨hissues, hstart, hsize⟩ i hi
    refine ⟨hissues i hi, ?_, fun hwrite => (min_le_right _ _).trans ((Nat.sub_le _ _).trans (hsize hwrite))⟩
    have : i * chunkSectors ≤ (chunksOf count - 1) * chunkSectors := Nat.mul_le_mul_right _ (by omega)
    omega

theorem covers_iff (hlba : lba < 2 ^ 32) :
    Covers hhdmOffset target lba count write (diskBytesMax hhdmOffset hw target lba count write) ↔
      (∀ i < chunksOf count, hw.Issues i) ∧ Addressable lba count ∧ (write = true → count ≤ entrySectors) :=
  covers_iff_chunks.trans (chunks_good_iff hlba)

end Requests

/-- A read covers its request whenever the hardware lets its commands be issued, and a write when it
is moreover not larger than one entry. -/
theorem transfers_cover_iff (hhdmOffset : ℕ) (hw : Hardware) (target : Word) (lba : UInt32) (count : ℕ) :
    (Covers hhdmOffset target lba.toNat count false (getDiskBytes hhdmOffset hw target lba.toNat count) ↔
      (∀ i < chunksOf count, hw.Issues i) ∧ Addressable lba.toNat count) ∧
    (Covers hhdmOffset target lba.toNat count true (setDiskBytes hhdmOffset hw target lba.toNat count) ↔
      (∀ i < chunksOf count, hw.Issues i) ∧ Addressable lba.toNat count ∧ count ≤ entrySectors) := by
  constructor
  · rw [getDiskBytes, covers_iff lba.toNat_lt]
    simp
  · rw [setDiskBytes, covers_iff lba.toNat_lt]
    simp

/-- A disk with a free slot for every command. -/
def readyDisk : Hardware := ⟨true, fun _ => some 0, fun _ => true⟩

/-- A write of one sector more than an entry describes tells the disk to write one sector. -/
theorem write_above_entry_short :
    ¬Covers 0 0x100000 0 8193 true (setDiskBytes 0 readyDisk 0x100000 0 8193) := by
  intro h
  have hsize := ((covers_iff (by norm_num)).mp h).2.2 rfl
  exact absurd hsize (by decide)

end DualFuse.Drivers.Disk
