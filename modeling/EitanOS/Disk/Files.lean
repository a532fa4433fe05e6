import EitanOS.Disk.Drive
import Mathlib.Data.List.Sort

/-!
# File operations (`filesystem.c`)

Every operation loads the file table, works on it in memory and writes it back. The calls that
fail return `false` with whatever they have done to the drive until then. Functions that take
`junk` read memory that `malloc` returned and nothing has written.

`removeFileFromDir` is `none` where it does not get to its end: when it asks `malloc` for `2 ^ 64 - 64`
bytes, which no heap has, and when it stores an entry to `null`. `listDir` is `none` where it reads the
memory behind the file table, which need not be mapped. `deleteDirectoryEntriesRecursive` takes a bound
`fuel` on its depth and is `none` when it is used up.
-/

namespace EitanOS

open Bytes

/-! ## Paths -/

/-- The loop of `is_valid_path` with `component_len`, and its last test. -/
def componentsOk : ℕ → List UInt8 → Bool
  | n, [] => n ≠ 0
  | n, c :: s =>
    if c = slash then n ≠ 0 && componentsOk 0 s
    else if c = 0 then false
    else n + 1 ≤ 60 && componentsOk (n + 1) s

/-- `is_valid_path`. Past 1001 characters `strlen` is `-1`, and the loop runs up to the final zero
and returns `false` there, if not before. -/
def isValidPath (path : List UInt8) : Bool :=
  path.head? = some slash && path.length ≤ 1001 && (path.length = 1 || componentsOk 0 path.tail)

/-- `split_path`: the path up to its last slash, and the name behind it. -/
def splitPath (path : List UInt8) : List UInt8 × List UInt8 :=
  ((path.reverse.dropWhile (· ≠ slash)).reverse, (path.reverse.takeWhile (· ≠ slash)).reverse)

/-- `entries[j].name`. -/
def dirName (entries : Buf) (j : ℕ) : Buf := fun k => entries (64 * j + k)

/-- `entries[j].file_table_index`. -/
def dirIndex (entries : Buf) (j : ℕ) : ℕ := (le32 entries (64 * j + 60)).toNat

/-- The loop of `resolve_path` over the components. -/
def resolveLoop (d : Drive) (t : FileTable) : Junk → ℕ → List (List UInt8) → Option ℕ
  | _, current, [] => some current
  | junk, current, part :: parts =>
    let e := t current
    if e.size = 0 then none
    else
      let entries := readSectors d e.startSector.toNat junk.buf e.size.toNat
      let found := (List.range (e.size.toNat / 64)).find? fun j =>
        strcmp (dirName entries j) (toBuf part) && (t (dirIndex entries j)).Live &&
          ((t (dirIndex entries j)).IsDir || parts.isEmpty)
      match found with
      | none => none
      | some j => resolveLoop d t (junk.sub 0) (dirIndex entries j) parts

/-- `resolve_path`. -/
def resolvePath (junk : Junk) (d : Drive) (t : FileTable) (path : List UInt8) : Option ℕ :=
  if path.head? = some slash then
    match findRoot t with
    | none => none
    | some root => resolveLoop d t junk root (strSplit path slash)
  else none

/-! ## Reading -/

/-- The entry `filesystem_read_file` and its siblings work on. -/
def lookup (junk : Junk) (d : Drive) (path : List UInt8) : Option FileEntry :=
  if isValidPath path then
    let t := loadFileTable (junk.sub 0) d
    match resolvePath (junk.sub 1) d t path with
    | none => none
    | some i => if (t i).Live then some (t i) else none
  else none

/-- `filesystem_read_file`: what it leaves in `data_out`. -/
def readFile (junk : Junk) (d : Drive) (path : List UInt8) (dataOut : Buf) : Option Buf :=
  (lookup junk d path).map fun e => readSectors d e.startSector.toNat dataOut e.size.toNat

/-- `file_metadata_t`. -/
structure FileMetadata where
  size : ℕ
  type : UInt32
  name : Buf

/-- `filesystem_read_file_metadata`: what it leaves in `metadata_out`. -/
def readFileMetadata (junk : Junk) (d : Drive) (path : List UInt8) (nameOut : Buf) :
    Option FileMetadata :=
  (lookup junk d path).map fun e =>
    let name := (splitPath path).2
    ⟨e.size.toNat, e.type, put (put nameOut 0 (toBuf name) (min (name.length + 1) 60)) 59 (fun _ => 0) 1⟩

/-- `filesystem_file_exists`. -/
def fileExists (junk : Junk) (d : Drive) (path : List UInt8) : Bool := (lookup junk d path).isSome

/-! ## Finding space -/

/-- The entries in use, in the order of the table. -/
def liveEntries (t : FileTable) : List ℕ := (List.range 640).filter fun i => (t i).Live

/-- The insertion sort of `find_space_for_file`: each entry goes behind those of the sorted part
that do not start after it. The sorted part is kept last entry first. -/
def sortBySector (t : FileTable) (l : List ℕ) : List ℕ :=
  (l.foldl (fun acc key =>
    List.orderedInsert (fun a b => (t b).startSector ≤ (t a).startSector) key acc) []).reverse

/-- The loop of `find_space_for_file` over the entries in the order of the disk. -/
def gapLoop (d : Drive) (t : FileTable) (needed : UInt32) : UInt32 → List ℕ → Option UInt32
  | prevEnd, [] =>
    let trailing := UInt32.ofNat d.sectorCount - 1 - prevEnd
    if needed ≤ trailing then some prevEnd else none
  | prevEnd, i :: l =>
    let e := t i
    if e.size = 0 then gapLoop d t needed prevEnd l
    else
      let gap := if prevEnd < e.startSector then e.startSector - prevEnd else 0
      if needed ≤ gap then some prevEnd
      else gapLoop d t needed (e.startSector + (e.size + 511) / 512) l

/-- `find_space_for_file`. -/
def findSpaceForFile (d : Drive) (t : FileTable) (size : ℕ) : Option UInt32 :=
  gapLoop d t (UInt32.ofNat ((size + 511) % 2 ^ 64 / 512)) 641 (sortBySector t (liveEntries t))

/-- `find_file_entry_slot`; `none` is `-1`. -/
def findFileEntrySlot (t : FileTable) : Option ℕ := (List.range 640).find? fun i => ¬ (t i).Live

/-! ## Editing -/

/-- The drive and the file table in memory. -/
structure Fs where
  drive : Drive
  table : FileTable

/-- `edit_file`. When there is no space, the entry is put back as it was. -/
def editFile (s : Fs) (i : ℕ) (data : Buf) (size : ℕ) : Bool × Fs :=
  if (s.table i).Live then
    match findSpaceForFile s.drive (s.table.clear i) size with
    | none => (false, s)
    | some start =>
      let t := Function.update s.table i ⟨magic, (s.table i).type, start, UInt32.ofNat size⟩
      let d := writeSectors s.drive start.toNat data size
      (true, ⟨saveFileTable d t, t⟩)
  else (false, s)

/-- The directory entries of an entry of the table, as `add_file_to_dir` and
`remove_file_from_dir` load them. -/
def loadEntries (junk : Junk) (s : Fs) (dir : ℕ) : Buf :=
  let e := s.table dir
  if 0 < e.size then readSectors s.drive e.startSector.toNat junk.buf e.size.toNat else junk.buf

/-- Fill in entry `j`: its index, then its name, cut to 59 characters. -/
def putDirEntry (entries : Buf) (j : ℕ) (i : ℕ) (name : List UInt8) : Buf :=
  let b := put entries (64 * j + 60) (byte32 (UInt32.ofNat i)) 4
  let b := put b (64 * j) (toBuf name) (min (name.length + 1) 60)
  put b (64 * j + 59) (fun _ => 0) 1

/-- `add_file_to_dir`. -/
def addFileToDir (junk : Junk) (s : Fs) (dir i : ℕ) (name : List UInt8) : Bool × Fs :=
  let count := (s.table dir).size.toNat / 64 + 1
  editFile s dir (putDirEntry (loadEntries junk s dir) (count - 1) i name) (count * 64)

/-- The entries kept by `remove_file_from_dir`, moved together. -/
def keepEntries (junk : Junk) (entries : Buf) (count i : ℕ) : Buf :=
  let kept := (List.range count).filter fun j => dirIndex entries j ≠ i
  fun k => match kept[k / 64]? with
    | some j => entries (64 * j + k % 64)
    | none => junk.buf k

/-- `remove_file_from_dir`: `new_entries_count` wraps around when there are no entries. When the only
entry is kept, it is stored to `new_entries`, which is `null` then. With more entries that are all kept,
the last one is stored behind `new_entries` and does not get to the drive. -/
def removeFileFromDir (junk : Junk) (s : Fs) (dir i : ℕ) : Option (Bool × Fs) :=
  let oldCount := (s.table dir).size.toNat / 64
  let entries := loadEntries (junk.sub 0) s dir
  if oldCount = 0 ∨ oldCount = 1 ∧ dirIndex entries 0 ≠ i then none
  else some (editFile s dir (keepEntries (junk.sub 1) entries oldCount i) ((oldCount - 1) * 64))

/-- `filesystem_write_file`. -/
def writeFile (junk : Junk) (d : Drive) (path : List UInt8) (data : Buf) (type : FileType)
    (size : ℕ) : Bool × Drive :=
  if isValidPath path then
    let newFile := !fileExists (junk.sub 0) d path
    let t := loadFileTable (junk.sub 1) d
    if !newFile then
      match resolvePath (junk.sub 2) d t path with
      | none => (false, d)
      | some i =>
        if (t i).IsFile then
          let (success, s) := editFile ⟨d, t⟩ i data size
          (success, s.drive)
        else (false, d)
    else
      match findSpaceForFile d t size with
      | none => (false, d)
      | some start =>
        match findFileEntrySlot t with
        | none => (false, d)
        | some i =>
          let t := Function.update t i ⟨magic, type.code, start, UInt32.ofNat size⟩
          let (dirPath, name) := splitPath path
          match resolvePath (junk.sub 2) d t dirPath with
          | none => (false, d)
          | some dir =>
            let (success, s) := addFileToDir (junk.sub 3) ⟨d, t⟩ dir i name
            if success then (true, writeSectors s.drive start.toNat data size)
            else (false, s.drive)
  else (false, d)

/-- `filesystem_create_directory`. -/
def createDirectory (junk : Junk) (d : Drive) (path : List UInt8) : Bool × Drive :=
  writeFile junk d path (fun _ => 0) .directory 0

/-- What `filesystem_delete_file` and `filesystem_delete_directory` do once they have the entry:
take it out of its directory and free its slot. -/
def unlinkEntry (junk : Junk) (s : Fs) (path : List UInt8) (i : ℕ) : Option (Bool × Drive) :=
  match resolvePath (junk.sub 0) s.drive s.table (splitPath path).1 with
  | none => some (false, s.drive)
  | some dir =>
    (removeFileFromDir (junk.sub 1) s dir i).map fun (success, s) =>
      if success then (true, saveFileTable s.drive (s.table.clear i)) else (false, s.drive)

/-- `filesystem_delete_file`. -/
def deleteFile (junk : Junk) (d : Drive) (path : List UInt8) : Option (Bool × Drive) :=
  if isValidPath path then
    let t := loadFileTable (junk.sub 0) d
    match resolvePath (junk.sub 1) d t path with
    | none => some (false, d)
    | some i => unlinkEntry (junk.sub 2) ⟨d, t⟩ path i
  else some (false, d)

/-- `delete_directory_entries_recursive`: the table afterwards. -/
def deleteDirectoryEntriesRecursive (d : Drive) : ℕ → Junk → FileTable → ℕ → Option FileTable
  | 0, _, _, _ => none
  | fuel + 1, junk, t, dir =>
    let e := t dir
    if e.size = 0 then some t
    else
      let entries := readSectors d e.startSector.toNat junk.buf e.size.toNat
      (List.range (e.size.toNat / 64)).foldlM (fun t j =>
        let i := dirIndex entries j
        if (t i).Live then
          if (t i).IsDir then
            (deleteDirectoryEntriesRecursive d fuel (junk.sub j) t i).map fun t => t.clear i
          else some (t.clear i)
        else some t) t

/-- `filesystem_delete_directory`. -/
def deleteDirectory (fuel : ℕ) (junk : Junk) (d : Drive) (path : List UInt8) :
    Option (Bool × Drive) :=
  if isValidPath path then
    let t := loadFileTable (junk.sub 0) d
    match resolvePath (junk.sub 1) d t path with
    | none => some (false, d)
    | some i =>
      if (t i).IsDir then
        (deleteDirectoryEntriesRecursive d fuel (junk.sub 2) t i).bind fun t =>
          unlinkEntry (junk.sub 3) ⟨d, t⟩ path i
      else some (false, d)
  else some (false, d)

/-- `filesystem_move_file`: once the three paths resolve, it does not look at what the two edits
return. -/
def moveFile (junk : Junk) (d : Drive) (path newPath : List UInt8) : Option (Bool × Drive) :=
  if isValidPath path && isValidPath newPath then
    let t := loadFileTable (junk.sub 0) d
    match resolvePath (junk.sub 1) d t path, resolvePath (junk.sub 2) d t (splitPath path).1,
      resolvePath (junk.sub 3) d t (splitPath newPath).1 with
    | some i, some dir, some newDir =>
      (removeFileFromDir (junk.sub 4) ⟨d, t⟩ dir i).map fun (_, s) =>
        (true, (addFileToDir (junk.sub 5) s newDir i (splitPath newPath).2).2.drive)
    | _, _, _ => some (false, d)
  else some (false, d)

/-! ## Listing -/

/-- The records `filesystem_list_dir` makes of directory entries. -/
def listings (t : FileTable) (entries : Buf) (count : ℕ) : List FileMetadata :=
  (List.range count).map fun j =>
    ⟨(t (dirIndex entries j)).size.toNat, (t (dirIndex entries j)).type,
      put (put (fun _ => 0) 0 (dirName entries j) 60) 59 (fun _ => 0) 1⟩

/-- `filesystem_list_dir`: the records it returns, `some none` for null. It is not followed to an index
outside of the table, where it may fault. -/
def listDir (junk : Junk) (d : Drive) (path : List UInt8) : Option (Option (List FileMetadata)) :=
  if isValidPath path && fileExists (junk.sub 0) d path then
    match readFileMetadata (junk.sub 1) d path junk.buf with
    | none => some none
    | some metadata =>
      if metadata.size < 64 then some none
      else
        match readFile (junk.sub 2) d path (junk.sub 3).buf with
        | none => some none
        | some entries =>
          if ∀ j < metadata.size / 64, dirIndex entries j < 640 then
            some (some (listings (loadFileTable (junk.sub 4) d) entries (metadata.size / 64)))
          else none
  else some none

end EitanOS
