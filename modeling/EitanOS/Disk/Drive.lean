import EitanOS.Util.Str

/-!
# The drive and the file table (`filesystem.c`)

The drive is its bytes, 512 to a sector, and `sector_count`. `identify_drive` panics on a drive
that is not writable, so `writable_drive` is set whenever a sector is written.

Constants of the source: sectors of 512 bytes; a file table of 640 entries of 16 bytes in sectors
1 to 20; directory entries of 64 bytes, 60 of them for the name.
-/

namespace EitanOS

open Bytes

/-- The drive. -/
structure Drive where
  bytes : Buf
  sectorCount : ℕ

/-- What the memory that `malloc` returns holds, for every allocation of a call: the call tree
gives each allocation a list of positions. -/
abbrev Junk := List ℕ → Buf

/-- The memory of the allocation at hand. -/
abbrev Junk.buf (j : Junk) : Buf := j []

/-- The allocations of the `k`-th callee. -/
def Junk.sub (j : Junk) (k : ℕ) : Junk := fun l => j (k :: l)

/-- `const uint8_t count = ceil((double)size / SECTOR_SIZE)`: the low byte of the number of
sectors. From `2 ^ 40` bytes on, `(int)num` in `floor` is out of range: it yields `INT_MIN`, `ceil`
then `INT_MIN + 1`, and its low byte is 1. -/
def sectorsOf (size : ℕ) : ℕ := if size < 2 ^ 40 then (size + 511) / 512 % 256 else 1

/-- `read_sectors(lba, target, size)`: the target afterwards. The last word of an odd size also
clears the byte after it. -/
def readSectors (d : Drive) (lba : ℕ) (target : Buf) (size : ℕ) : Buf :=
  let count := sectorsOf size
  if count < 1 ∨ d.sectorCount ≤ (lba + count) % 2 ^ 32 then target
  else fun k =>
    if k < size ∧ k < count * 512 then d.bytes (lba % 2 ^ 28 * 512 + k)
    else if k = size ∧ size % 2 = 1 ∧ k < count * 512 then 0
    else target k

/-- `write_sectors(lba, src, size)`: the last sector is filled up with zeros. -/
def writeSectors (d : Drive) (lba : ℕ) (src : Buf) (size : ℕ) : Drive :=
  let count := sectorsOf size
  if count < 1 ∨ d.sectorCount ≤ (lba + count) % 2 ^ 32 then d
  else { d with
    bytes := put d.bytes (lba % 2 ^ 28 * 512) (fun k => if k < size then src k else 0) (count * 512) }

/-! ## The file table -/

/-- `file_type_t`. -/
inductive FileType
  | file
  | directory
  | rootDirectory
deriving DecidableEq

/-- The value of the enumerator. -/
def FileType.code : FileType → UInt32
  | file => 0
  | directory => 1
  | rootDirectory => 2

theorem FileType.code_inj {a b : FileType} : a.code = b.code ↔ a = b := by
  cases a <;> cases b <;> decide

/-- `MAGIC_NUMBER`. -/
def magic : UInt32 := 0xE17A9055

/-- `file_entry_t`. On disk, `type` may hold any value. -/
structure FileEntry where
  magicNumber : UInt32
  type : UInt32
  startSector : UInt32
  size : UInt32
deriving DecidableEq

/-- The entry is in use. -/
abbrev FileEntry.Live (e : FileEntry) : Prop := e.magicNumber = magic

/-- The entry is a directory, other than the root. -/
abbrev FileEntry.IsDir (e : FileEntry) : Prop := e.type = FileType.directory.code

/-- The entry is a regular file. -/
abbrev FileEntry.IsFile (e : FileEntry) : Prop := e.type = FileType.file.code

/-- The entry is the root. -/
abbrev FileEntry.IsRoot (e : FileEntry) : Prop := e.type = FileType.rootDirectory.code

/-- `file_table`: from entry 640 on it is the memory behind the table. -/
abbrev FileTable := ℕ → FileEntry

/-- `file_table[i].magic_number = null`. -/
def FileTable.clear (t : FileTable) (i : ℕ) : FileTable :=
  Function.update t i { t i with magicNumber := 0 }

/-- The memory of the table. -/
def encodeTable (t : FileTable) : Buf := fun k =>
  let e := t (k / 16)
  if k % 16 < 4 then byte32 e.magicNumber (k % 4)
  else if k % 16 < 8 then byte32 e.type (k % 4)
  else if k % 16 < 12 then byte32 e.startSector (k % 4)
  else byte32 e.size (k % 4)

/-- The table in a memory. -/
def decodeTable (b : Buf) : FileTable := fun i =>
  ⟨le32 b (16 * i), le32 b (16 * i + 4), le32 b (16 * i + 8), le32 b (16 * i + 12)⟩

/-- `load_file_table`. -/
def loadFileTable (junk : Junk) (d : Drive) : FileTable :=
  decodeTable (readSectors d 1 junk.buf 10240)

/-- `write_sectors(1, file_table, FILE_TABLE_SIZE)`. -/
def saveFileTable (d : Drive) (t : FileTable) : Drive := writeSectors d 1 (encodeTable t) 10240

/-- `find_root`. -/
def findRoot (t : FileTable) : Option ℕ :=
  (List.range 640).find? fun i => (t i).Live ∧ (t i).IsRoot

/-- `init_superblock`: magic number, version, sector count, start and length of the table, and
sector size, packed. -/
def initSuperblock (d : Drive) : Drive :=
  let word (v : ℕ) (k : ℕ) : UInt8 := byte32 (UInt32.ofNat v) k
  writeSectors d 0 (fun k =>
    if k < 4 then byte32 magic k
    else if k < 6 then word 1 (k - 4)
    else if k < 10 then word d.sectorCount (k - 6)
    else if k < 14 then word 1 (k - 10)
    else if k < 18 then word 20 (k - 14)
    else word 512 (k - 18)) 20

/-- The table `ensure_root` writes. -/
def rootTable : FileTable := fun i =>
  if i = 0 then ⟨magic, FileType.rootDirectory.code, 21, 0⟩ else ⟨0, 0, 0, 0⟩

/-- `ensure_root`. -/
def ensureRoot (junk : Junk) (d : Drive) : Drive :=
  match findRoot (loadFileTable junk d) with
  | some _ => d
  | none => saveFileTable d rootTable

/-- `filesystem_init` after `identify_drive`. -/
def filesystemInit (junk : Junk) (d : Drive) : Drive := ensureRoot junk (initSuperblock d)

end EitanOS
