import EitanOS.Process.Ledger
import EitanOS.Disk.Atomic
import EitanOS.Disk.Paths

/-!
# What the file operations do to the heap

The operations of `filesystem.c` once more, now on the machine: every `malloc` and `free` in its
place, on every path to a `return`. What they decide and what they do to the drive is taken from the
functions on the drive.

* `loadFileTable_spends`, `freeFileTable_spends`: the table in its block.
* **`lookup_spends`**, **`writeFile_leaves`**, **`deleteFile_leaves`**, **`deleteDirectory_leaves`**,
  **`moveFile_leaves`**, **`listDir_leaves`**: when an operation loses blocks.
* **`writeFile_spec`** and the like: an operation that is given the block of the file table in the
  heap it works on frees only blocks of that heap, and leaves no table behind.
-/

namespace EitanOS.Sys

open Prog Bytes

/-- `read_sectors` and `write_sectors` get as far as the transfer. -/
def Transfers (d : Drive) (lba size : ℕ) : Prop :=
  ¬ (sectorsOf size < 1 ∨ d.sectorCount ≤ (lba + sectorsOf size) % 2 ^ 32)

instance (d : Drive) (lba size : ℕ) : Decidable (Transfers d lba size) :=
  inferInstanceAs (Decidable (¬ _))

/-- How many bytes `read_sectors` stores: whole words, and no more than there are in its sectors. -/
def bytesRead (size : ℕ) : ℕ := min (size + size % 2) (sectorsOf size * 512)

/-- What was written to the drive. -/
def setDrive (d : Drive) : Sys Unit := modify fun s => { s with drive := d }

/-- `free_file_table`. -/
def freeFileTable : Sys Unit := do
  let s ← get
  free s.fileTable
  modify fun s => { s with fileTable := 0 }

/-- `load_file_table`. Every caller goes on to read the table. -/
def loadFileTable (junk : Junk) : Sys FileTable := do
  let s ← get
  (if s.fileTable ≠ 0 then freeFileTable else pure ())
  let ptr ← malloc 10240
  modify fun s => { s with fileTable := ptr }
  access ptr True
  return EitanOS.loadFileTable junk s.drive

/-- `str_split`: nothing frees the tokens. -/
def strSplit (str : List UInt8) (delim : UInt8) : Sys (List (List UInt8)) := do
  let parts := EitanOS.strSplit str delim
  let tokens ← malloc (parts.length * 8)
  parts.forM fun part => do
    let token ← malloc (part.length + 1)
    access tokens True
    access token True
  return parts

/-- The loop of `resolve_path` over the components. -/
def resolveLoop (d : Drive) (t : FileTable) : Junk → ℕ → List (List UInt8) → Sys (Option ℕ)
  | _, current, [] => return some current
  | junk, current, part :: parts =>
    let e := t current
    if e.size = 0 then return none
    else do
      let dirEntries ← malloc e.size.toNat
      access dirEntries (Transfers d e.startSector.toNat e.size.toNat ∨ 64 ≤ e.size.toNat)
      let entries := readSectors d e.startSector.toNat junk.buf e.size.toNat
      let found := (List.range (e.size.toNat / 64)).find? fun j =>
        strcmp (dirName entries j) (toBuf part) && (t (dirIndex entries j)).Live &&
          ((t (dirIndex entries j)).IsDir || parts.isEmpty)
      free dirEntries
      match found with
      | none => return none
      | some j => resolveLoop d t (junk.sub 0) (dirIndex entries j) parts

/-- `resolve_path`. -/
def resolvePath (junk : Junk) (t : FileTable) (path : List UInt8) : Sys (Option ℕ) :=
  if path.head? = some slash then do
    let s ← get
    let parts ← strSplit path slash
    match findRoot t with
    | none => return none
    | some root => resolveLoop s.drive t junk root parts
  else return none

/-- `split_path`: the blocks of the directory's path and of the name. -/
def splitPath (path : List UInt8) : Sys (ℕ × ℕ) := do
  let name ← malloc ((EitanOS.splitPath path).2.length + 1)
  let dirPath ← malloc ((EitanOS.splitPath path).1.length + 1)
  access name True
  access dirPath True
  return (dirPath, name)

/-! ## Reading -/

/-- The part that `filesystem_read_file` and its siblings share: with an entry, the table is still
loaded. -/
def lookup (junk : Junk) (path : List UInt8) : Sys (Option FileEntry) :=
  if isValidPath path then do
    let t ← loadFileTable (junk.sub 0)
    match ← resolvePath (junk.sub 1) t path with
    | none => do
      freeFileTable
      return none
    | some i =>
      if (t i).Live then return some (t i)
      else do
        freeFileTable
        return none
  else return none

/-- `filesystem_read_file` into the memory at `dataOut`. -/
def readFile (junk : Junk) (path : List UInt8) (dataOut : ℕ) : Sys (Option Buf) := do
  let s ← get
  match ← lookup junk path with
  | none => return none
  | some e => do
    access dataOut (Transfers s.drive e.startSector.toNat e.size.toNat)
    freeFileTable
    return some (readSectors s.drive e.startSector.toNat (junk.sub 2).buf e.size.toNat)

/-- `filesystem_read_file_metadata`: nothing frees the parts of the path. -/
def readFileMetadata (junk : Junk) (path : List UInt8) : Sys (Option FileEntry) := do
  match ← lookup junk path with
  | none => return none
  | some e => do
    let _ ← splitPath path
    freeFileTable
    return some e

/-- `filesystem_file_exists`. -/
def fileExists (junk : Junk) (path : List UInt8) : Sys Bool := do
  match ← lookup junk path with
  | none => return false
  | some _ => do
    freeFileTable
    return true

/-- `filesystem_list_dir`: the block of the listings. On success nothing frees the entries. -/
def listDir (junk : Junk) (path : List UInt8) : Sys (Option ℕ) :=
  if isValidPath path then do
    if ← fileExists (junk.sub 0) path then
      match ← readFileMetadata (junk.sub 1) path with
      | none => return none
      | some e =>
        if e.size < 64 then return none
        else do
          let entries ← malloc e.size.toNat
          match ← readFile (junk.sub 2) path entries with
          | none => do
            free entries
            return none
          | some _ => do
            let listings ← malloc (e.size.toNat / 64 * 72)
            let _ ← loadFileTable (junk.sub 3)
            access listings True
            access entries True
            freeFileTable
            return some listings
    else return none
  else return none

/-! ## Editing -/

/-- `add_file_to_dir`. -/
def addFileToDir (junk : Junk) (t : FileTable) (dir i : ℕ) (name : List UInt8) :
    Sys (Bool × FileTable) := do
  let s ← get
  let entries ← malloc (((t dir).size.toNat / 64 + 1) * 64)
  access entries True
  let (success, fs) := EitanOS.addFileToDir junk ⟨s.drive, t⟩ dir i name
  setDrive fs.drive
  free entries
  return (success, fs.table)

/-- `remove_file_from_dir`: `new_entries_count` wraps around when there are no entries. Both blocks are
sized by whole entries, one less in the second; what is stored in them is not. -/
def removeFileFromDir (junk : Junk) (t : FileTable) (dir i : ℕ) : Sys (Bool × FileTable) := do
  let s ← get
  let e := t dir
  let oldCount := e.size.toNat / 64
  let oldEntries ← malloc (oldCount * 64)
  access oldEntries (0 < e.size ∧ Transfers s.drive e.startSector.toNat e.size.toNat)
  fill (oldCount * 64) (if 0 < e.size ∧ Transfers s.drive e.startSector.toNat e.size.toNat then
    bytesRead e.size.toNat else 0)
  let newSize := (oldCount + (2 ^ 64 - 1)) % 2 ^ 64 * 64 % 2 ^ 64
  let newEntries ← malloc newSize
  let entries := loadEntries (junk.sub 0) ⟨s.drive, t⟩ dir
  access oldEntries (0 < oldCount)
  access newEntries (∃ j < oldCount, dirIndex entries j ≠ i)
  fill newSize (((List.range oldCount).filter fun j => dirIndex entries j ≠ i).length * 64)
  let (success, fs) :=
    editFile ⟨s.drive, t⟩ dir (keepEntries (junk.sub 1) entries oldCount i) newSize
  access newEntries (success ∧ Transfers s.drive (fs.table dir).startSector.toNat newSize)
  setDrive fs.drive
  free oldEntries
  free newEntries
  return (success, fs.table)

/-- `filesystem_write_file`. -/
def writeFile (junk : Junk) (path : List UInt8) (data : Buf) (type : FileType) (size : ℕ) :
    Sys Bool :=
  if isValidPath path then do
    let found ← fileExists (junk.sub 0) path
    let t ← loadFileTable (junk.sub 1)
    let s ← get
    if found then
      match ← resolvePath (junk.sub 2) t path with
      | none => do
        freeFileTable
        return false
      | some i =>
        if (t i).IsFile then do
          let (success, fs) := editFile ⟨s.drive, t⟩ i data size
          setDrive fs.drive
          freeFileTable
          return success
        else do
          freeFileTable
          return false
    else
      match findSpaceForFile s.drive t size with
      | none => do
        freeFileTable
        return false
      | some start =>
        match findFileEntrySlot t with
        | none => do
          freeFileTable
          return false
        | some i => do
          let t := Function.update t i ⟨magic, type.code, start, UInt32.ofNat size⟩
          let (dirPath, name) ← splitPath path
          match ← resolvePath (junk.sub 2) t (EitanOS.splitPath path).1 with
          | none => do
            free name
            free dirPath
            freeFileTable
            return false
          | some dir => do
            let (success, _) ← addFileToDir (junk.sub 3) t dir i (EitanOS.splitPath path).2
            free name
            free dirPath
            (if success then
              modify fun s => { s with drive := writeSectors s.drive start.toNat data size }
            else pure ())
            freeFileTable
            return success
  else return false

/-- `filesystem_create_directory`. -/
def createDirectory (junk : Junk) (path : List UInt8) : Sys Bool :=
  writeFile junk path (fun _ => 0) .directory 0

/-- `filesystem_delete_file`: on success nothing frees the parts of the path. -/
def deleteFile (junk : Junk) (path : List UInt8) : Sys Bool :=
  if isValidPath path then do
    let t ← loadFileTable (junk.sub 0)
    match ← resolvePath (junk.sub 1) t path with
    | none => do
      freeFileTable
      return false
    | some i => do
      let (dirPath, name) ← splitPath path
      match ← resolvePath (junk.sub 2) t (EitanOS.splitPath path).1 with
      | none => do
        free dirPath
        free name
        freeFileTable
        return false
      | some dir => do
        let (success, t) ← removeFileFromDir (junk.sub 3) t dir i
        if success then do
          modify fun s => { s with drive := saveFileTable s.drive (t.clear i) }
          freeFileTable
          return true
        else do
          free dirPath
          free name
          freeFileTable
          return false
  else return false

/-- `delete_directory_entries_recursive`, with a bound on the depth that the stack allows. -/
def deleteDirectoryEntriesRecursive (d : Drive) : ℕ → Junk → FileTable → ℕ → Sys FileTable
  | 0, _, _, _ => failure
  | depth + 1, junk, t, dir =>
    let e := t dir
    if e.size = 0 then return t
    else do
      let block ← malloc e.size.toNat
      access block (Transfers d e.startSector.toNat e.size.toNat ∨ 64 ≤ e.size.toNat)
      let entries := readSectors d e.startSector.toNat junk.buf e.size.toNat
      let t ← (List.range (e.size.toNat / 64)).foldlM (fun t j =>
        let i := dirIndex entries j
        if (t i).Live then
          if (t i).IsDir then do
            let t ← deleteDirectoryEntriesRecursive d depth (junk.sub j) t i
            return FileTable.clear t i
          else return FileTable.clear t i
        else return t) t
      free block
      return t

/-- `filesystem_delete_directory`. -/
def deleteDirectory (depth : ℕ) (junk : Junk) (path : List UInt8) : Sys Bool :=
  if isValidPath path then do
    let t ← loadFileTable (junk.sub 0)
    let s ← get
    match ← resolvePath (junk.sub 1) t path with
    | none => do
      freeFileTable
      return false
    | some i =>
      if (t i).IsDir then do
        let t ← deleteDirectoryEntriesRecursive s.drive depth (junk.sub 2) t i
        let (dirPath, name) ← splitPath path
        match ← resolvePath (junk.sub 3) t (EitanOS.splitPath path).1 with
        | none => do
          free dirPath
          free name
          freeFileTable
          return false
        | some dir => do
          let (success, t) ← removeFileFromDir (junk.sub 4) t dir i
          (if success then
            modify fun s => { s with drive := saveFileTable s.drive (t.clear i) }
          else pure ())
          free dirPath
          free name
          freeFileTable
          return success
      else do
        freeFileTable
        return false
  else return false

/-- The end of `filesystem_move_file`, on success and at `fail`. -/
def moveEnd (parts newParts : ℕ × ℕ) : Sys Unit := do
  free parts.1
  free parts.2
  free newParts.1
  free newParts.2
  freeFileTable

/-- `filesystem_move_file`. -/
def moveFile (junk : Junk) (path newPath : List UInt8) : Sys Bool :=
  if isValidPath path && isValidPath newPath then do
    let parts ← splitPath path
    let newParts ← splitPath newPath
    let t ← loadFileTable (junk.sub 0)
    match ← resolvePath (junk.sub 1) t path with
    | none => do
      moveEnd parts newParts
      return false
    | some i =>
      match ← resolvePath (junk.sub 2) t (EitanOS.splitPath path).1 with
      | none => do
        moveEnd parts newParts
        return false
      | some dir =>
        match ← resolvePath (junk.sub 3) t (EitanOS.splitPath newPath).1 with
        | none => do
          moveEnd parts newParts
          return false
        | some newDir => do
          let (_, t) ← removeFileFromDir (junk.sub 4) t dir i
          let _ ← addFileToDir (junk.sub 5) t newDir i (EitanOS.splitPath newPath).2
          moveEnd parts newParts
          return true
  else return false

/-! ## Specifications -/

/-- The code holds `held`, and the block of the file table besides, in the loaded heap. -/
def Loaded (sp : ℕ) (held : List (ℕ × ℕ)) (s : Kernel) : Prop :=
  ∃ t, Holds sp t ((sp, t) :: held) s

/-- The same with all blocks accounted for, of which `n` are lost. -/
def Loads (sp : ℕ) (base : ℕ → List ℕ) (held : List (ℕ × ℕ)) (n : ℕ) (d : Drive) (s : Kernel) : Prop :=
  ∃ t, Spends sp base t ((sp, t) :: held) n d s

/-- After a call: there is no table, and nothing is lost exactly if `c` holds. -/
def Leaves (sp : ℕ) (base : ℕ → List ℕ) (held : List (ℕ × ℕ)) (c : Prop) (s : Kernel) : Prop :=
  ∃ n d, Spends sp base 0 held n d s ∧ (n = 0 ↔ c)

variable {sp t n : ℕ} {base : ℕ → List ℕ} {held : List (ℕ × ℕ)} {junk : Junk} {tab : FileTable}
  {path : List UInt8} {d : Drive}

theorem loaded_of_null {s : Kernel} (h : Holds sp 0 held s) : Loaded sp held s :=
  ⟨0, h.null sp⟩

theorem loads_of_null {s : Kernel} (h : Spends sp base 0 held n d s) : Loads sp base held n d s :=
  ⟨0, Spends.null_iff.mpr h⟩

theorem holds_of_leaves {α : Type} {m : Sys α} {c : Drive → α → Prop}
    (h : ∀ base d, Triple KernelOk (Loads sp base held 0 d) m fun r => Leaves sp base held (c d r)) :
    Triple KernelOk (Loaded sp held) m fun _ => Holds sp 0 held := by
  rintro s ⟨t, hs⟩
  obtain ⟨base, hb⟩ := hs.spends
  exact ((h base s.drive).post fun _ _ ⟨_, _, hl, _⟩ => hl.holds) s ⟨t, hb⟩

/-! ## The table -/

theorem freeFileTable_spends :
    Triple KernelOk (Loads sp base held n d) freeFileTable fun _ => Spends sp base 0 held n d := by
  refine Triple.get fun s₀ => ?_
  refine ((spends_free (t := s₀.fileTable)).pre ?_).bind fun _ =>
    Triple.modify fun s hs => hs.setTable 0
  rintro s ⟨rfl, t, hs⟩
  obtain rfl := hs.holds.table
  exact hs

/-- **`load_file_table` frees the table of the call before in the heap it came from.** -/
theorem loadFileTable_spends :
    Triple KernelOk (Loads sp base held n d) (loadFileTable junk)
      fun tab s => tab = EitanOS.loadFileTable junk d ∧ Loads sp base held n d s := by
  refine Triple.get fun s₀ => ?_
  refine Triple.bind (R := fun _ s => s₀.drive = d ∧ Spends sp base 0 held n d s) ?_ fun _ => ?_
  · rintro s ⟨rfl, t, hs⟩
    have hd : s.drive = d := hs.drive
    refine Triple.ite (P := fun s' => Loads sp base held n d s' ∧ s' = s) (fun _ => ?_) (fun h0 => ?_) s
      ⟨⟨t, hs⟩, rfl⟩
    · exact (freeFileTable_spends.pre fun _ hs => hs.1).post fun _ _ hs => ⟨hd, hs⟩
    · refine Triple.ret ?_
      rintro s ⟨⟨t, hs⟩, rfl⟩
      obtain rfl := hs.holds.table.symm.trans (not_not.mp h0)
      exact ⟨hd, Spends.null_iff.mp hs⟩
  · refine Triple.assume fun hd => (spends_malloc (by norm_num)).bind fun ptr => ?_
    refine Triple.bind (R := fun _ => Spends sp base ptr ((sp, ptr) :: held) n d) ?_ fun _ => ?_
    · exact Triple.modify fun s hs => hs.2.setTable ptr
    · exact spends_access.bind fun _ => Triple.ret fun s hs => ⟨by rw [hd], ptr, hs.2⟩

theorem freeFileTable_spec :
    Triple KernelOk (Loaded sp held) freeFileTable fun _ => Holds sp 0 held := by
  rintro s ⟨t, hs⟩
  obtain ⟨base, hb⟩ := hs.spends
  exact (freeFileTable_spends.post fun _ _ hl => hl.holds) s ⟨t, hb⟩

theorem loadFileTable_value :
    Triple KernelOk (fun s => Loaded sp held s ∧ s.drive = d) (loadFileTable junk)
      fun tab s => tab = EitanOS.loadFileTable junk d ∧ Loaded sp held s := by
  rintro s ⟨⟨t, hs⟩, rfl⟩
  obtain ⟨base, hb⟩ := hs.spends
  exact (loadFileTable_spends.post fun _ _ ⟨e, t, hl⟩ => ⟨e, t, hl.holds⟩) s ⟨t, hb⟩

theorem modifyDrive_loaded {g : Kernel → Drive} :
    Triple KernelOk (Loaded sp held) (modify fun s => { s with drive := g s })
      fun _ => Loaded sp held :=
  Triple.modify fun _ ⟨t, hs⟩ => ⟨t, hs.setDrive _⟩

/-! ## Code that runs with the table loaded -/

section Loads

variable {α : Type} {p : ℕ}

theorem loads_of_local {m : Sys α} {Q : α → Prop} {k : ℕ}
    (h : ∀ t held, Triple KernelOk (Spends sp base t held n d) m fun r s =>
      Q r ∧ Spends sp base t held k d s) :
    Triple KernelOk (Loads sp base held n d) m fun r s => Q r ∧ Loads sp base held k d s :=
  Triple.exists fun t => (h t _).post fun _ _ hs => ⟨hs.1, t, hs.2⟩

theorem free_loads :
    Triple KernelOk (Loads sp base ((sp, p) :: held) n d) (free p) fun _ => Loads sp base held n d :=
  Triple.exists fun t => (spends_free.pre fun _ hs => hs.perm (.swap _ _ _)).post fun _ _ hs => ⟨t, hs⟩

theorem loads_perm {held' : List (ℕ × ℕ)} {s : Kernel} (h : Loads sp base held n d s)
    (e : held.Perm held') : Loads sp base held' n d s := by
  obtain ⟨t, h⟩ := h
  exact ⟨t, h.perm (e.cons _)⟩

theorem loads_lose {s : Kernel} (h : Loads sp base ((sp, p) :: held) n d s) (hp : p ≠ 0) :
    Loads sp base held (n + 1) d s := by
  obtain ⟨t, h⟩ := h
  exact ⟨t, (h.perm (.swap _ _ _)).lose hp⟩

theorem access_loads {c : Prop} [Decidable c] :
    Triple KernelOk (Loads sp base held n d) (access p c) fun _ s =>
      (c → p ≠ 0) ∧ Loads sp base held n d s :=
  loads_of_local fun _ _ => spends_access

theorem loads_of_edit {m : Sys α} {Q : α → Prop}
    (h : ∀ t held, Triple KernelOk (Spends sp base t held n d) m fun r s =>
      Q r ∧ ∃ d, Spends sp base t held n d s) :
    Triple KernelOk (Loads sp base held n d) m fun r s => Q r ∧ ∃ d, Loads sp base held n d s :=
  Triple.exists fun t => (h t _).post fun _ _ ⟨hq, d, hs⟩ => ⟨hq, d, t, hs⟩

theorem modifyDrive_loads {g : Kernel → Drive} :
    Triple KernelOk (Loads sp base held n d) (modify fun s => { s with drive := g s })
      fun _ s => ∃ d, Loads sp base held n d s :=
  Triple.modify fun _ ⟨t, hs⟩ => ⟨_, t, hs.setDrive _⟩

theorem freeFileTable_ret {β : Type} {b : β} {c : β → Prop} (hc : n = 0 ↔ c b) :
    Triple KernelOk (Loads sp base held n d) (do freeFileTable; return b)
      fun r => Leaves sp base held (c r) :=
  freeFileTable_spends.bind fun _ => Triple.ret fun _ hs => ⟨n, d, hs, hc⟩

end Loads

/-! ## Paths -/

theorem length_of_valid (hp : isValidPath path) : path.length ≤ 1001 := by
  simp only [isValidPath, Bool.and_eq_true, decide_eq_true_eq] at hp
  exact hp.1.2

theorem strSplitLoop_bound (delim : UInt8) (tok s : List UInt8) :
    (strSplitLoop delim tok s).length ≤ tok.length + s.length ∧
      ∀ part ∈ strSplitLoop delim tok s, part.length ≤ tok.length + s.length := by
  induction s generalizing tok with
  | nil =>
    rw [strSplitLoop]
    split_ifs with h
    · simp
    · have := List.length_pos_iff.mpr h
      refine ⟨by simpa using Nat.succ_le_of_lt this, fun part hp => ?_⟩
      rw [List.mem_singleton.mp hp, List.length_reverse]
      omega
  | cons c s ih =>
    rw [strSplitLoop, List.length_cons]
    obtain ⟨h₁, h₂⟩ := ih []
    obtain ⟨h₃, h₄⟩ := ih (c :: tok)
    simp only [List.length_nil, List.length_cons] at h₁ h₂ h₃ h₄
    split_ifs with hc ht
    · exact ⟨by omega, fun part hp => by have := h₂ part hp; omega⟩
    · refine ⟨by rw [List.length_cons]; omega, fun part hp => ?_⟩
      rcases List.mem_cons.mp hp with rfl | hp
      · rw [List.length_reverse]; omega
      · have := h₂ part hp; omega
    · exact ⟨by omega, fun part hp => by have := h₄ part hp; omega⟩

theorem tokens_spends {tokens : ℕ} {parts : List (List UInt8)}
    (hlen : ∀ part ∈ parts, part.length ≤ 1001) :
    Triple KernelOk (Spends sp base t ((sp, tokens) :: held) n d)
      (parts.forM fun part => do
        let token ← malloc (part.length + 1)
        access tokens True
        access token True)
      fun _ s => (parts ≠ [] → tokens ≠ 0) ∧
        Spends sp base t ((sp, tokens) :: held) (n + parts.length) d s := by
  induction parts generalizing n with
  | nil => exact Triple.ret fun _ hs => ⟨fun h => absurd rfl h, hs⟩
  | cons part parts ih =>
    have hpart := hlen part List.mem_cons_self
    refine Triple.bind (R := fun _ s => tokens ≠ 0 ∧ Spends sp base t ((sp, tokens) :: held) (n + 1) d s)
      ?_ fun _ => Triple.assume fun htok => ?_
    · refine (spends_malloc (by omega)).bind fun token => Triple.assume fun _ => ?_
      refine spends_access.bind fun _ => Triple.assume fun htokens => ?_
      refine spends_access.post fun _ s hs => ⟨htokens trivial, hs.2.lose (hs.1 trivial)⟩
    · refine (ih fun part hp => hlen part (List.mem_cons_of_mem _ hp)).post fun _ s hs => ⟨fun _ => htok, ?_⟩
      rw [List.length_cons, Nat.add_comm parts.length, ← Nat.add_assoc]
      exact hs.2

/-- How many blocks `str_split` takes: one for every token and one for the array, if there are any. -/
def tokenBlocks (parts : List (List UInt8)) : ℕ := if parts = [] then 0 else parts.length + 1

/-- **Nothing frees what `str_split` takes.** -/
theorem strSplit_spends {str : List UInt8} {delim : UInt8} (hs : str.length ≤ 1001) :
    Triple KernelOk (Spends sp base t held n d) (strSplit str delim) fun parts s =>
      parts = EitanOS.strSplit str delim ∧ Spends sp base t held (n + tokenBlocks parts) d s := by
  obtain ⟨h₁, h₂⟩ := strSplitLoop_bound delim [] str
  simp only [List.length_nil, Nat.zero_add] at h₁ h₂
  have hbytes : (EitanOS.strSplit str delim).length * 8 ≤ 2 ^ 64 - 24 := by
    unfold EitanOS.strSplit
    omega
  have hlen : ∀ part ∈ EitanOS.strSplit str delim, part.length ≤ 1001 := fun part hp =>
    (h₂ part hp).trans hs
  refine (spends_malloc hbytes).bind fun tokens => Triple.assume fun hnull => ?_
  refine (tokens_spends hlen).bind fun _ => Triple.ret fun s hs => ?_
  refine ⟨rfl, ?_⟩
  unfold tokenBlocks
  split_ifs with hparts
  · obtain ⟨-, hs⟩ := hs
    rw [hnull (by rw [hparts]; rfl), hparts] at hs
    exact Spends.null_iff.mp hs
  · exact hs.2.lose (hs.1 hparts)

theorem resolveLoop_spends {current : ℕ} {parts : List (List UInt8)} {d' : Drive} :
    Triple KernelOk (Spends sp base t held n d) (resolveLoop d' tab junk current parts)
      fun _ => Spends sp base t held n d := by
  induction parts generalizing junk current with
  | nil => exact Triple.ret fun _ hs => hs
  | cons part parts ih =>
    rw [resolveLoop]
    refine Triple.ite (fun _ => Triple.ret fun _ hs => hs) fun _ => ?_
    have hsize := (tab current).size.toNat_lt
    refine (spends_malloc (by omega)).bind fun dirEntries => Triple.assume fun _ => ?_
    refine spends_access.bind fun _ => Triple.assume fun _ => spends_free.bind fun _ => ?_
    split
    · exact Triple.ret fun _ hs => hs
    · exact ih

/-- How many blocks `resolve_path` loses. -/
def pathLoss (path : List UInt8) : ℕ :=
  if path.head? = some slash then tokenBlocks (EitanOS.strSplit path slash) else 0

/-- **`resolve_path` loses the tokens of the path.** -/
theorem resolvePath_spends (hp : path.length ≤ 1001) :
    Triple KernelOk (Spends sp base t held n d) (resolvePath junk tab path) fun r s =>
      (path = [slash] → r = findRoot tab) ∧ Spends sp base t held (n + pathLoss path) d s := by
  unfold resolvePath pathLoss
  by_cases hhead : path.head? = some slash
  · rw [if_pos hhead, if_pos hhead]
    generalize findRoot tab = root
    refine Triple.get fun s₀ => Triple.bind ((strSplit_spends hp).pre fun _ hs => hs.2) fun parts => ?_
    cases root with
    | none => exact Triple.ret fun _ hs => ⟨fun _ => rfl, hs.1 ▸ hs.2⟩
    | some root =>
      refine Triple.assume fun hparts => ?_
      rw [← hparts]
      by_cases hpath : path = [slash]
      · rw [hparts, hpath, strSplit_slash]
        exact Triple.ret fun _ hs => ⟨fun _ => rfl, hs⟩
      · exact resolveLoop_spends.post fun _ _ hs => ⟨fun h => absurd h hpath, hs⟩
  · rw [if_neg hhead, if_neg hhead]
    refine Triple.ret fun _ hs => ⟨fun h => absurd ?_ hhead, hs⟩
    rw [h]
    rfl

theorem tokenBlocks_eq_zero {parts : List (List UInt8)} : tokenBlocks parts = 0 ↔ parts = [] := by
  unfold tokenBlocks
  split_ifs with h
  · simp [h]
  · simp [h]

theorem pathLoss_eq_zero (hp : isValidPath path) : pathLoss path = 0 ↔ path = [slash] := by
  have hhead : path.head? = some slash := by
    simp only [isValidPath, Bool.and_eq_true, decide_eq_true_eq] at hp
    exact hp.1.1
  rw [pathLoss, if_pos hhead, tokenBlocks_eq_zero]
  rcases (validPath_components hp).2 with h | ⟨h, hne⟩
  · simp [h, strSplit_slash]
  · refine iff_of_false hne fun e => hne ?_
    rw [e, strSplit_slash]

theorem pathLoss_dir (hp : isValidPath path) :
    pathLoss (EitanOS.splitPath path).1 = 0 ↔ (EitanOS.strSplit path slash).length ≤ 1 := by
  by_cases hroot : path = [slash]
  · subst hroot
    decide
  · obtain ⟨cs, name, hsplit, hhead, hdir, -⟩ := validPath_split hp hroot
    rw [pathLoss, if_pos hhead, tokenBlocks_eq_zero, hdir, hsplit]
    simp

theorem splitPath_length (path : List UInt8) :
    (EitanOS.splitPath path).1.length ≤ path.length ∧
      (EitanOS.splitPath path).2.length ≤ path.length := by
  unfold EitanOS.splitPath
  have h₁ := (List.dropWhile_sublist (· ≠ slash) (l := path.reverse)).length_le
  have h₂ := (List.takeWhile_sublist (· ≠ slash) (l := path.reverse)).length_le
  simp only [List.length_reverse] at h₁ h₂ ⊢
  exact ⟨h₁, h₂⟩

theorem splitPath_spends (hp : path.length ≤ 1001) :
    Triple KernelOk (Spends sp base t held n d) (splitPath path) fun r s =>
      (r.1 ≠ 0 ∧ r.2 ≠ 0) ∧ Spends sp base t ([(sp, r.1), (sp, r.2)] ++ held) n d s := by
  obtain ⟨h₁, h₂⟩ := splitPath_length path
  refine (spends_malloc (by omega)).bind fun name => Triple.assume fun _ => ?_
  refine (spends_malloc (by omega)).bind fun dirPath => Triple.assume fun _ => ?_
  refine spends_access.bind fun _ => Triple.assume fun hname => ?_
  refine spends_access.bind fun _ => Triple.assume fun hdir => ?_
  exact Triple.ret fun _ hs => ⟨⟨hdir trivial, hname trivial⟩, hs⟩

theorem pathLoss_add_dir (hp : isValidPath path) :
    pathLoss path + pathLoss (EitanOS.splitPath path).1 = 0 ↔ path = [slash] := by
  rw [← pathLoss_eq_zero hp]
  refine ⟨fun h => by omega, fun h => ?_⟩
  obtain rfl := (pathLoss_eq_zero hp).mp h
  decide

theorem resolvePath_loads (hp : path.length ≤ 1001) :
    Triple KernelOk (Loads sp base held n d) (resolvePath junk tab path) fun r s =>
      (path = [slash] → r = findRoot tab) ∧ Loads sp base held (n + pathLoss path) d s :=
  loads_of_local fun _ _ => resolvePath_spends hp

theorem splitPath_loads (hp : path.length ≤ 1001) :
    Triple KernelOk (Loads sp base held n d) (splitPath path) fun r s =>
      (r.1 ≠ 0 ∧ r.2 ≠ 0) ∧ Loads sp base ((sp, r.1) :: (sp, r.2) :: held) n d s :=
  Triple.exists fun t => (splitPath_spends hp).post fun _ _ hs =>
    ⟨hs.1, t, hs.2.perm List.perm_middle⟩

/-! ## Reading -/

/-- After `lookup`, the table is loaded if there is an entry. -/
def Found (sp : ℕ) (base : ℕ → List ℕ) (held : List (ℕ × ℕ)) (n : ℕ) (d : Drive) :
    Option FileEntry → Kernel → Prop
  | none => Spends sp base 0 held n d
  | some _ => Loads sp base held n d

theorem live_of_findRoot {i : ℕ} (h : findRoot tab = some i) : (tab i).Live := by
  have hroot : (tab i).Live ∧ (tab i).IsRoot := by simpa using List.find?_some h
  exact hroot.1

/-- **`lookup` loses the tokens of the path**, and the root is there if the table has one. -/
theorem lookup_spends (hp : isValidPath path) :
    Triple KernelOk (Loads sp base held n d) (lookup junk path) fun e s =>
      (path = [slash] → (e = none ↔ findRoot (EitanOS.loadFileTable (junk.sub 0) d) = none)) ∧
        Found sp base held (n + pathLoss path) d e s := by
  rw [lookup, if_pos hp]
  refine loadFileTable_spends.bind fun tab => Triple.assume fun htab => ?_
  rw [← htab]
  refine (resolvePath_loads (length_of_valid hp)).bind fun i => Triple.assume fun hi => ?_
  cases i with
  | none =>
    refine freeFileTable_spends.bind fun _ => Triple.ret fun _ hs => ⟨fun h => ?_, hs⟩
    exact iff_of_true rfl (hi h).symm
  | some i =>
    refine Triple.ite (fun _ => Triple.ret fun _ hs => ⟨fun h => ?_, hs⟩) fun hlive => ?_
    · simp [← hi h]
    · refine freeFileTable_spends.bind fun _ => Triple.ret fun _ hs => ⟨fun h => ?_, hs⟩
      exact absurd (live_of_findRoot (hi h).symm) hlive

theorem readFile_spends {dataOut : ℕ} (hp : isValidPath path) :
    Triple KernelOk (Loads sp base held n d) (readFile junk path dataOut) fun _ =>
      Spends sp base 0 held (n + pathLoss path) d := by
  refine Triple.get fun s₀ => ((lookup_spends hp).pre fun _ hs => hs.2).bind fun e => ?_
  refine Triple.assume fun _ => ?_
  cases e with
  | none => exact Triple.ret fun _ hs => hs
  | some e =>
    refine access_loads.bind fun _ => (freeFileTable_spends.pre fun _ hs => hs.2).bind fun _ => ?_
    exact Triple.ret fun _ hs => hs

/-- **`filesystem_read_file_metadata` loses the parts of the path as well.** -/
theorem readFileMetadata_spends (hp : isValidPath path) :
    Triple KernelOk (Loads sp base held n d) (readFileMetadata junk path) fun e s =>
      (path = [slash] → (e = none ↔ findRoot (EitanOS.loadFileTable (junk.sub 0) d) = none)) ∧
        Spends sp base 0 held (n + pathLoss path + if e = none then 0 else 2) d s := by
  refine (lookup_spends hp).bind fun e => Triple.assume fun he => ?_
  cases e with
  | none => exact Triple.ret fun _ hs => ⟨he, hs⟩
  | some e =>
    refine (splitPath_loads (length_of_valid hp)).bind fun parts => Triple.assume fun hparts => ?_
    refine (freeFileTable_spends.pre fun _ hs => ?_).bind fun _ => Triple.ret fun _ hs => ⟨he, hs⟩
    exact loads_lose (loads_lose hs hparts.1) hparts.2

theorem fileExists_spends (hp : isValidPath path) :
    Triple KernelOk (Loads sp base held n d) (fileExists junk path) fun r s =>
      (path = [slash] → (r = false ↔ findRoot (EitanOS.loadFileTable (junk.sub 0) d) = none)) ∧
        Spends sp base 0 held (n + pathLoss path) d s := by
  refine (lookup_spends hp).bind fun e => Triple.assume fun he => ?_
  cases e with
  | none => exact Triple.ret fun _ hs => ⟨fun h => by simpa using he h, hs⟩
  | some e =>
    refine freeFileTable_spends.bind fun _ => Triple.ret fun _ hs => ⟨fun h => ?_, hs⟩
    simpa using he h

theorem readFile_leaves {dataOut : ℕ} (hp : isValidPath path) :
    Triple KernelOk (Loads sp base held 0 d) (readFile junk path dataOut) fun _ =>
      Leaves sp base held (path = [slash]) :=
  (readFile_spends hp).post fun _ _ hs => ⟨_, d, hs, by rw [Nat.zero_add, pathLoss_eq_zero hp]⟩

theorem fileExists_leaves (hp : isValidPath path) :
    Triple KernelOk (Loads sp base held 0 d) (fileExists junk path) fun _ =>
      Leaves sp base held (path = [slash]) :=
  (fileExists_spends hp).post fun _ _ hs => ⟨_, d, hs.2, by rw [Nat.zero_add, pathLoss_eq_zero hp]⟩

theorem readFileMetadata_leaves (hp : isValidPath path) :
    Triple KernelOk (Loads sp base held 0 d) (readFileMetadata junk path) fun _ =>
      Leaves sp base held
        (path = [slash] ∧ findRoot (EitanOS.loadFileTable (junk.sub 0) d) = none) := by
  refine (readFileMetadata_spends hp).post fun e _ ⟨he, hs⟩ => ⟨_, d, hs, ?_⟩
  have hsum : 0 + pathLoss path + (if e = none then 0 else 2) = 0 ↔ path = [slash] ∧ e = none := by
    rw [← pathLoss_eq_zero hp]
    split_ifs with h
    · simp [h]
    · simp [h]
  exact hsum.trans (and_congr_right fun h => he h)

/-- The block of the listings. -/
def listed (sp : ℕ) : Option ℕ → List (ℕ × ℕ)
  | none => []
  | some p => [(sp, p)]

/-- **`filesystem_list_dir` loses blocks unless the root is missing.** -/
theorem listDir_leaves (hp : isValidPath path) :
    Triple KernelOk (Loads sp base held 0 d) (listDir junk path) fun r =>
      Leaves sp base (listed sp r ++ held) (path = [slash] ∧
        (findRoot (EitanOS.loadFileTable ((junk.sub 0).sub 0) d) = none ∨
          findRoot (EitanOS.loadFileTable ((junk.sub 1).sub 0) d) = none)) := by
  have hloss := pathLoss_eq_zero hp
  rw [listDir, if_pos hp]
  refine (fileExists_spends hp).bind fun found => Triple.assume fun hfound => ?_
  cases found with
  | false =>
    refine Triple.ret fun _ hs => ⟨_, d, hs, ?_⟩
    rw [Nat.zero_add, hloss]
    exact ⟨fun h => ⟨h, .inl ((hfound h).mp rfl)⟩, fun h => h.1⟩
  | true =>
    refine ((readFileMetadata_spends hp).pre fun _ => loads_of_null).bind fun e =>
      Triple.assume fun he => ?_
    cases e with
    | none =>
      refine Triple.ret fun _ hs => ⟨_, d, hs, ?_⟩
      rw [if_pos rfl, ← hloss]
      refine ⟨fun h => ⟨by omega, .inr ((he (hloss.mp (by omega))).mp rfl)⟩, fun h => ?_⟩
      omega
    | some e =>
      -- the parts of the path are lost
      rw [if_neg nofun]
      have hno {k : ℕ} (hk : 2 ≤ k) : k = 0 ↔ path = [slash] ∧
          (findRoot (EitanOS.loadFileTable ((junk.sub 0).sub 0) d) = none ∨
            findRoot (EitanOS.loadFileTable ((junk.sub 1).sub 0) d) = none) := by
        refine iff_of_false (by omega) fun ⟨h, hroot⟩ => ?_
        rcases hroot with hroot | hroot
        · exact absurd ((hfound h).mpr hroot) (by decide)
        · exact absurd ((he h).mpr hroot) nofun
      refine Triple.ite (fun _ => Triple.ret fun _ hs => ⟨_, d, hs, hno (by omega)⟩) fun _ => ?_
      have hsize := e.size.toNat_lt
      refine (spends_malloc (by omega)).bind fun entries => Triple.assume fun _ => ?_
      refine ((readFile_spends hp).pre fun _ => loads_of_null).bind fun r => ?_
      cases r with
      | none => exact spends_free.bind fun _ => Triple.ret fun _ hs => ⟨_, d, hs, hno (by omega)⟩
      | some r =>
        refine (spends_malloc (by omega)).bind fun listings => Triple.assume fun _ => ?_
        refine (loadFileTable_spends.pre fun _ => loads_of_null).bind fun _ => Triple.assume fun _ => ?_
        refine access_loads.bind fun _ => Triple.assume fun _ => ?_
        refine access_loads.bind fun _ => Triple.assume fun hentries => ?_
        have hlose {k : ℕ} (s : Kernel)
            (hs : Loads sp base ((sp, listings) :: (sp, entries) :: held) k d s) :
            Loads sp base ((sp, listings) :: held) (k + 1) d s :=
          loads_lose (loads_perm hs (.swap _ _ _)) (hentries trivial)
        refine (freeFileTable_spends.pre hlose).bind fun _ => Triple.ret fun _ hs => ?_
        exact ⟨_, d, hs, hno (by omega)⟩

/-! ## Editing -/

theorem setDrive_spends {d' : Drive} :
    Triple KernelOk (Spends sp base t held n d) (setDrive d') fun _ => Spends sp base t held n d' :=
  Triple.modify fun _ hs => hs.setDrive d'

theorem fill_spends {block size : ℕ} :
    Triple KernelOk (Spends sp base t held n d) (fill block size) fun _ => Spends sp base t held n d :=
  Triple.modify fun _ hs => hs.setSpilled _

theorem addFileToDir_spends {dir i : ℕ} {name : List UInt8} :
    Triple KernelOk (Spends sp base t held n d) (addFileToDir junk tab dir i name)
      fun _ s => True ∧ ∃ d, Spends sp base t held n d s := by
  have hsize := (tab dir).size.toNat_lt
  refine Triple.get fun s₀ => ((spends_malloc (by omega)).pre fun _ hs => hs.2).bind fun entries => ?_
  refine Triple.assume fun _ => spends_access.bind fun _ => Triple.assume fun _ => ?_
  generalize EitanOS.addFileToDir junk ⟨s₀.drive, tab⟩ dir i name = r
  obtain ⟨success, fs⟩ := r
  refine setDrive_spends.bind fun _ => ?_
  exact spends_free.bind fun _ => Triple.ret fun _ hs => ⟨trivial, _, hs⟩

/-- The size of the entries that `remove_file_from_dir` writes back. -/
def newEntriesSize (e : FileEntry) : ℕ := (e.size.toNat / 64 + (2 ^ 64 - 1)) % 2 ^ 64 * 64 % 2 ^ 64

theorem removeFileFromDir_spends {dir i : ℕ} :
    Triple KernelOk (Spends sp base t held n d) (removeFileFromDir junk tab dir i) fun r s =>
      ((tab dir).Live →
        r.1 = (findSpaceForFile d (tab.clear dir) (newEntriesSize (tab dir))).isSome) ∧
        ∃ d, Spends sp base t held n d s := by
  have hsize := (tab dir).size.toNat_lt
  refine Triple.get fun s₀ => ?_
  refine Triple.pre (P := fun s => s₀.drive = d ∧ Spends sp base t held n d s) ?_
    fun _ hs => ⟨hs.1 ▸ hs.2.drive, hs.2⟩
  refine Triple.assume fun hd => (spends_malloc (by omega)).bind fun oldEntries => ?_
  refine Triple.assume fun _ => spends_access.bind fun _ => Triple.assume fun _ => ?_
  refine fill_spends.bind fun _ => ?_
  refine (spends_malloc (by omega)).bind fun newEntries => Triple.assume fun _ => ?_
  refine spends_access.bind fun _ => Triple.assume fun _ => ?_
  refine spends_access.bind fun _ => Triple.assume fun _ => ?_
  refine fill_spends.bind fun _ => ?_
  dsimp only
  rw [hd]
  generalize hr : editFile ⟨d, tab⟩ dir _ _ = r
  have hfst : (tab dir).Live →
      r.1 = (findSpaceForFile d (tab.clear dir) (newEntriesSize (tab dir))).isSome := by
    intro hl
    rw [← hr]
    exact editFile_fst _ hl
  obtain ⟨success, fs⟩ := r
  refine spends_access.bind fun _ => Triple.assume fun _ => ?_
  refine setDrive_spends.bind fun _ => ?_
  refine (spends_free.pre fun _ hs => hs.perm (.swap _ _ _)).bind fun _ => ?_
  exact spends_free.bind fun _ => Triple.ret fun _ hs => ⟨hfst, _, hs⟩

/-- **`filesystem_write_file` loses the tokens of the path, once to look for the file and once to find
it or its directory.** -/
theorem writeFile_leaves {data : Buf} {type : FileType} {size : ℕ} (hp : isValidPath path) :
    Triple KernelOk (Loads sp base held 0 d) (writeFile junk path data type size)
      fun _ => Leaves sp base held (path = [slash]) := by
  have hlen := length_of_valid hp
  have hloss := pathLoss_eq_zero hp
  have hdir := pathLoss_add_dir hp
  rw [writeFile, if_pos hp]
  refine (fileExists_spends hp).bind fun found => Triple.assume fun _ => ?_
  refine (loadFileTable_spends.pre fun _ => loads_of_null).bind fun tab => Triple.assume fun _ => ?_
  refine Triple.get fun s₀ => ?_
  refine (Triple.ite (fun _ => ?_) fun _ => ?_ :
    Triple KernelOk (Loads sp base held (0 + pathLoss path) d) _ _).pre fun _ hs => hs.2
  · refine (resolvePath_loads hlen).bind fun i => Triple.assume fun _ => ?_
    have htwice : 0 + pathLoss path + pathLoss path = 0 ↔ path = [slash] := by
      rw [← hloss]
      omega
    cases i with
    | none => exact freeFileTable_ret htwice
    | some i =>
      refine Triple.ite (fun _ => ?_) fun _ => freeFileTable_ret htwice
      generalize editFile ⟨s₀.drive, tab⟩ i data size = r
      obtain ⟨success, fs⟩ := r
      exact modifyDrive_loads.bind fun _ => Triple.exists fun _ => freeFileTable_ret htwice
  · rw [Nat.zero_add]
    split
    · exact freeFileTable_ret hloss
    split
    · exact freeFileTable_ret hloss
    refine (splitPath_loads hlen).bind fun ⟨dirPath, name⟩ => Triple.assume fun _ => ?_
    refine (resolvePath_loads ((splitPath_length path).1.trans hlen)).bind fun dir => ?_
    refine Triple.assume fun _ => ?_
    cases dir with
    | none =>
      refine (free_loads.pre fun _ hs => loads_perm hs (.swap _ _ _)).bind fun _ => ?_
      exact free_loads.bind fun _ => freeFileTable_ret hdir
    | some dir =>
      refine (loads_of_edit fun _ _ => addFileToDir_spends).bind fun ⟨success, _⟩ => ?_
      refine Triple.assume fun _ => Triple.exists fun d => ?_
      refine (free_loads.pre fun _ hs => loads_perm hs (.swap _ _ _)).bind fun _ => ?_
      refine free_loads.bind fun _ => ?_
      refine (Triple.ite (fun _ => modifyDrive_loads) fun _ => Triple.ret fun _ hs => ⟨d, hs⟩).bind
        fun _ => Triple.exists fun _ => freeFileTable_ret hdir

/-- **`filesystem_delete_file` loses the parts of the path when it succeeds.** With the root, that is
where the root's entries less one have space. -/
theorem deleteFile_leaves (hp : isValidPath path) :
    Triple KernelOk (Loads sp base held 0 d) (deleteFile junk path) fun _ =>
      Leaves sp base held (path = [slash] ∧
        ∀ i, findRoot (EitanOS.loadFileTable (junk.sub 0) d) = some i →
          findSpaceForFile d ((EitanOS.loadFileTable (junk.sub 0) d).clear i)
            (newEntriesSize (EitanOS.loadFileTable (junk.sub 0) d i)) = none) := by
  have hlen := length_of_valid hp
  have hdirs : path = [slash] → (EitanOS.splitPath path).1 = [slash] := by
    rintro rfl
    decide
  rw [deleteFile, if_pos hp]
  refine loadFileTable_spends.bind fun tab => Triple.assume fun htab => ?_
  rw [← htab]
  refine (resolvePath_loads hlen).bind fun i => Triple.assume fun hi => ?_
  cases i with
  | none =>
    refine freeFileTable_ret ?_
    rw [Nat.zero_add, pathLoss_eq_zero hp]
    exact ⟨fun h => ⟨h, fun i hroot => absurd ((hi h).trans hroot) nofun⟩, fun h => h.1⟩
  | some i =>
    refine (splitPath_loads hlen).bind fun ⟨dirPath, name⟩ => Triple.assume fun hparts => ?_
    refine (resolvePath_loads ((splitPath_length path).1.trans hlen)).bind fun dir => ?_
    refine Triple.assume fun hdir => ?_
    -- where nothing else is lost
    have hquiet {q : Prop} (hq : path = [slash] → q) :
        0 + pathLoss path + pathLoss (EitanOS.splitPath path).1 = 0 ↔ path = [slash] ∧ q := by
      rw [Nat.zero_add, pathLoss_add_dir hp]
      exact ⟨fun h => ⟨h, hq h⟩, fun h => h.1⟩
    cases dir with
    | none =>
      refine free_loads.bind fun _ => free_loads.bind fun _ => freeFileTable_ret (hquiet fun h => ?_)
      exact absurd ((hi h).trans (hdir (hdirs h)).symm) nofun
    | some dir =>
      have hroot : path = [slash] → findRoot tab = some dir := fun h => (hdir (hdirs h)).symm
      refine (loads_of_edit fun _ _ => removeFileFromDir_spends).bind fun ⟨success, tab'⟩ => ?_
      refine Triple.assume fun hsuccess => Triple.exists fun _ => Triple.ite (fun hs => ?_) fun hs => ?_
      · have hlose {k : ℕ} {d : Drive} (s : Kernel)
            (hs : Loads sp base ((sp, dirPath) :: (sp, name) :: held) k d s) :
            Loads sp base held (k + 2) d s :=
          loads_lose (loads_lose hs hparts.1) hparts.2
        refine modifyDrive_loads.bind fun _ => Triple.exists fun _ => ?_
        refine (freeFileTable_ret (iff_of_false (by omega) fun h => ?_)).pre hlose
        have hsome := hsuccess (live_of_findRoot (hroot h.1))
        rw [h.2 dir (hroot h.1)] at hsome
        exact absurd (hs.symm.trans hsome) (by decide)
      · refine free_loads.bind fun _ => free_loads.bind fun _ => freeFileTable_ret (hquiet fun h j hj => ?_)
        obtain rfl : dir = j := Option.some.inj ((hroot h).symm.trans hj)
        have hnone := hsuccess (live_of_findRoot hj)
        simpa [hs] using hnone.symm

theorem deleteDirectoryEntriesRecursive_spends {d' : Drive} {depth dir : ℕ} :
    Triple KernelOk (Spends sp base t held n d) (deleteDirectoryEntriesRecursive d' depth junk tab dir)
      fun _ => Spends sp base t held n d := by
  induction depth generalizing junk tab dir held with
  | zero => exact Triple.stop fun _ hs => hs.ok
  | succ depth ih =>
    rw [deleteDirectoryEntriesRecursive]
    refine Triple.ite (fun _ => Triple.ret fun _ hs => hs) fun _ => ?_
    have hsize := (tab dir).size.toNat_lt
    refine (spends_malloc (by omega)).bind fun block => Triple.assume fun _ => ?_
    refine spends_access.bind fun _ => Triple.assume fun _ => ?_
    refine (Triple.foldlM fun tab j _ => ?_).bind fun _ => spends_free.bind fun _ =>
      Triple.ret fun _ hs => hs
    refine Triple.ite (fun _ => Triple.ite (fun _ => ?_) fun _ => ?_) fun _ => ?_
    · exact ih.bind fun _ => Triple.ret fun _ hs => hs
    · exact Triple.ret fun _ hs => hs
    · exact Triple.ret fun _ hs => hs

theorem deleteDirectory_leaves {depth : ℕ} (hp : isValidPath path) :
    Triple KernelOk (Loads sp base held 0 d) (deleteDirectory depth junk path)
      fun _ => Leaves sp base held (path = [slash]) := by
  have hlen := length_of_valid hp
  have hloss : 0 + pathLoss path = 0 ↔ path = [slash] := by
    simpa using pathLoss_eq_zero hp
  have hdir : 0 + pathLoss path + pathLoss (EitanOS.splitPath path).1 = 0 ↔ path = [slash] := by
    simpa using pathLoss_add_dir hp
  rw [deleteDirectory, if_pos hp]
  refine loadFileTable_spends.bind fun tab => Triple.assume fun _ => Triple.get fun s₀ => ?_
  refine ((resolvePath_loads hlen).pre fun _ hs => hs.2).bind fun i => Triple.assume fun _ => ?_
  cases i with
  | none => exact freeFileTable_ret hloss
  | some i =>
    refine Triple.ite (fun _ => ?_) fun _ => freeFileTable_ret hloss
    refine (loads_of_local fun _ _ => deleteDirectoryEntriesRecursive_spends.post
      fun _ _ hs => ⟨trivial, hs⟩).bind fun tab => Triple.assume fun _ => ?_
    refine (splitPath_loads hlen).bind fun ⟨dirPath, name⟩ => Triple.assume fun _ => ?_
    refine (resolvePath_loads ((splitPath_length path).1.trans hlen)).bind fun dir => ?_
    refine Triple.assume fun _ => ?_
    cases dir with
    | none => exact free_loads.bind fun _ => free_loads.bind fun _ => freeFileTable_ret hdir
    | some dir =>
      refine (loads_of_edit fun _ _ => removeFileFromDir_spends).bind fun ⟨success, tab⟩ => ?_
      refine Triple.assume fun _ => Triple.exists fun d => ?_
      refine (Triple.ite (fun _ => modifyDrive_loads) fun _ => Triple.ret fun _ hs => ⟨d, hs⟩).bind
        fun _ => Triple.exists fun _ => ?_
      exact free_loads.bind fun _ => free_loads.bind fun _ => freeFileTable_ret hdir

theorem moveEnd_spends {parts newParts : ℕ × ℕ} :
    Triple KernelOk (Loads sp base ((sp, parts.1) :: (sp, parts.2) :: (sp, newParts.1) ::
      (sp, newParts.2) :: held) n d) (moveEnd parts newParts) fun _ => Spends sp base 0 held n d :=
  free_loads.bind fun _ => free_loads.bind fun _ => free_loads.bind fun _ =>
    free_loads.bind fun _ => freeFileTable_spends

/-- **`filesystem_move_file` loses nothing only from the root**, which has no components, and then only
if there are none to resolve in the other path. -/
theorem moveFile_leaves {newPath : List UInt8} (hp : isValidPath path && isValidPath newPath) :
    Triple KernelOk (Loads sp base held 0 d) (moveFile junk path newPath) fun _ =>
      Leaves sp base held (path = [slash] ∧ ((EitanOS.strSplit newPath slash).length ≤ 1 ∨
        findRoot (EitanOS.loadFileTable (junk.sub 0) d) = none)) := by
  obtain ⟨h₁, h₂⟩ := Bool.and_eq_true_iff.mp hp
  have hlen := length_of_valid h₁
  have hlen' := length_of_valid h₂
  have hloss := pathLoss_eq_zero h₁
  have hdir := pathLoss_add_dir h₁
  have hnew := pathLoss_dir h₂
  -- every exit frees the four parts and the table
  have hend : ∀ (b : Bool) (parts newParts : ℕ × ℕ) (n : ℕ) (d : Drive) (c : Prop), (n = 0 ↔ c) →
      Triple KernelOk (Loads sp base ((sp, newParts.1) :: (sp, newParts.2) :: (sp, parts.1) ::
        (sp, parts.2) :: held) n d) (do moveEnd parts newParts; return b)
        fun _ => Leaves sp base held c := by
    intro b parts newParts n d c hc
    refine (moveEnd_spends.pre fun s hs => loads_perm hs ?_).bind fun _ =>
      Triple.ret fun _ hs => ⟨n, d, hs, hc⟩
    exact List.perm_append_comm_assoc [(sp, newParts.1), (sp, newParts.2)]
      [(sp, parts.1), (sp, parts.2)] held
  rw [moveFile, if_pos hp]
  refine (splitPath_loads hlen).bind fun parts => Triple.assume fun _ => ?_
  refine (splitPath_loads hlen').bind fun newParts => Triple.assume fun _ => ?_
  refine loadFileTable_spends.bind fun tab => Triple.assume fun htab => ?_
  rw [← htab]
  refine (resolvePath_loads hlen).bind fun i => Triple.assume fun hi => ?_
  cases i with
  | none =>
    refine hend false parts newParts _ _ _ ?_
    rw [Nat.zero_add, hloss]
    exact ⟨fun h => ⟨h, .inr (hi h).symm⟩, fun h => h.1⟩
  | some i =>
    refine (resolvePath_loads ((splitPath_length path).1.trans hlen)).bind fun dir => ?_
    refine Triple.assume fun hi' => ?_
    cases dir with
    | none =>
      refine hend false parts newParts _ _ _ ?_
      rw [Nat.zero_add, hdir]
      refine ⟨fun h => ⟨h, .inr (hi' ?_).symm⟩, fun h => h.1⟩
      rw [h]
      decide
    | some dir =>
      have hall : 0 + pathLoss path + pathLoss (EitanOS.splitPath path).1 +
          pathLoss (EitanOS.splitPath newPath).1 = 0 ↔
          path = [slash] ∧ ((EitanOS.strSplit newPath slash).length ≤ 1 ∨ findRoot tab = none) := by
        rw [Nat.zero_add, Nat.add_eq_zero_iff, hdir, hnew]
        refine and_congr_right fun h => ⟨.inl, fun h' => h'.resolve_right fun hroot => ?_⟩
        exact absurd ((hi h).trans hroot) nofun
      refine (resolvePath_loads ((splitPath_length newPath).1.trans hlen')).bind fun newDir => ?_
      refine Triple.assume fun _ => ?_
      cases newDir with
      | none => exact hend false parts newParts _ _ _ hall
      | some newDir =>
        refine (loads_of_edit fun _ _ => removeFileFromDir_spends).bind fun ⟨_, tab⟩ => ?_
        refine Triple.assume fun _ => Triple.exists fun _ => ?_
        refine (loads_of_edit fun _ _ => addFileToDir_spends).bind fun _ => ?_
        exact Triple.assume fun _ => Triple.exists fun _ => hend true parts newParts _ _ _ hall

/-! ## What they hold

Without the count of what is lost. -/

theorem readFile_spec {dataOut : ℕ} (hp : isValidPath path) :
    Triple KernelOk (Loaded sp held) (readFile junk path dataOut) fun _ => Holds sp 0 held :=
  holds_of_leaves fun _ _ => readFile_leaves hp

theorem readFileMetadata_spec (hp : isValidPath path) :
    Triple KernelOk (Loaded sp held) (readFileMetadata junk path) fun _ => Holds sp 0 held :=
  holds_of_leaves fun _ _ => readFileMetadata_leaves hp

theorem fileExists_spec (hp : isValidPath path) :
    Triple KernelOk (Loaded sp held) (fileExists junk path) fun _ => Holds sp 0 held :=
  holds_of_leaves fun _ _ => fileExists_leaves hp

theorem listDir_spec (hp : isValidPath path) :
    Triple KernelOk (Loaded sp held) (listDir junk path) fun _ => Holds sp 0 held := by
  rintro s ⟨t, hs⟩
  obtain ⟨base, hb⟩ := hs.spends
  refine ((listDir_leaves hp).post fun r s ⟨_, _, hl, _⟩ => ?_) s ⟨t, hb⟩
  cases r with
  | none => exact hl.holds
  | some p => exact hl.holds.leak

theorem writeFile_spec {data : Buf} {type : FileType} {size : ℕ} (hp : isValidPath path) :
    Triple KernelOk (Loaded sp held) (writeFile junk path data type size)
      fun _ => Holds sp 0 held :=
  holds_of_leaves fun _ _ => writeFile_leaves hp

theorem deleteFile_spec (hp : isValidPath path) :
    Triple KernelOk (Loaded sp held) (deleteFile junk path) fun _ => Holds sp 0 held :=
  holds_of_leaves fun _ _ => deleteFile_leaves hp

theorem deleteDirectory_spec {depth : ℕ} (hp : isValidPath path) :
    Triple KernelOk (Loaded sp held) (deleteDirectory depth junk path) fun _ => Holds sp 0 held :=
  holds_of_leaves fun _ _ => deleteDirectory_leaves hp

theorem moveFile_spec {newPath : List UInt8} (hp : isValidPath path && isValidPath newPath) :
    Triple KernelOk (Loaded sp held) (moveFile junk path newPath) fun _ => Holds sp 0 held :=
  holds_of_leaves fun _ _ => moveFile_leaves hp

end EitanOS.Sys
