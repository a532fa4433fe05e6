import EitanOS.Disk.Folders
import EitanOS.Disk.Placement

/-!
# Creating files and directories

`filesystem_write_file` makes a new entry in whatever the parent of the path resolves to. Where the
path resolves itself, it writes over a file, also when it is called to create a directory.

* `createdTable`: the table once there is a new entry. **`TreeOk.writeFile_created`**: a path that does
  not resolve is created exactly where there is one (`roomToCreate`), as an entry of its parent
  (`TreeOk.writeFile_added`).
* `KeepsFiles`: a file is no parent, and other files are as they were. `FilesSafe`,
  **`files_not_directories`**: for which paths, types and sizes this holds.
* `CreatesFaithfully`: what `filesystem_create_directory` should do. **`create_directory_faithful`**: it
  does so exactly where the path is no file, and there is no room below what is no folder.
-/

namespace EitanOS

open Bytes Names

variable {d d' : Drive} {t t' : FileTable} {r i j q size : ℕ} {path : List UInt8} {data : Buf}
  {type : FileType} {junk : Junk}

/-- The table once an entry is created in entry `dir` of table `t`, if there is space for its data, an
entry for it, and space for `dir` with one record more. -/
def createdTable (d : Drive) (t : FileTable) (dir : ℕ) (type : FileType) (size : ℕ) :
    Option FileTable :=
  match findSpaceForFile d t size, findFileEntrySlot t with
  | some start, some i =>
    let t : FileTable := Function.update t i ⟨magic, type.code, start, UInt32.ofNat size⟩
    let dirSize := ((t dir).size.toNat / 64 + 1) * 64
    (findSpaceForFile d (t.clear dir) dirSize).map fun start =>
      Function.update t dir ⟨magic, (t dir).type, start, UInt32.ofNat dirSize⟩
  | _, _ => none

/-- There is room for a new entry in entry `dir`. -/
def roomToCreate (d : Drive) (dir : ℕ) (type : FileType) (size : ℕ) : Bool :=
  (createdTable d (diskTable d) dir type size).isSome

/-- **What a call that writes to a path should do to files**, for its result `x`: a file is no parent,
and files at other paths stay as they are. -/
def KeepsFiles (junk : Junk) (d : Drive) (path : List UInt8) (x : Bool × Drive) : Prop :=
  (∀ q, resolve junk d (splitPath path).1 = some q → (diskTable d q).IsFile →
    x.1 = false ∧ SameFile d x.2 q) ∧
  (x.1 = true → ∀ j < 640, (diskTable d j).Live → (diskTable d j).IsFile →
    resolve junk d path ≠ some j → SameFile d x.2 j)

/-- Entry `j` is a regular file. -/
def IsRegular (d : Drive) (j : ℕ) : Prop := j < 640 ∧ (diskTable d j).Live ∧ (diskTable d j).IsFile

/-- **When a write keeps files.** No record goes into a file or is made below one; and where the number of
sectors wraps around to 0, so that a write that gets to its end takes sector 641, no other file is there. -/
def FilesSafe (junk : Junk) (d : Drive) (path : List UInt8) (type : FileType) (size : ℕ) : Prop :=
  (∀ p, createsIn junk d path type size = some p → ¬ IsRegular d p ∧
    ∀ q, resolve junk d (splitPath path).1 = some q → ¬ (diskTable d q).IsFile) ∧
  (¬ SeeksSpace size → (createsIn junk d path type size).isSome ∨
      (∃ i, resolve junk d path = some i ∧ (diskTable d i).IsFile) →
    ∀ j, IsRegular d j → (diskTable d j).size ≠ 0 → (diskTable d j).startSector = 641 →
      resolve junk d path = some j)

/-- **What creating a directory should do.** -/
def CreatesFaithfully (junk : Junk) (d : Drive) (path : List UInt8) : Prop :=
  (∀ d', createDirectory junk d path = (true, d') → resolve junk d path = none ∧
    (∃ i, (∀ junk', resolve junk' d' path = some i) ∧ i < 640 ∧ (diskTable d' i).Live ∧
      (diskTable d' i).IsDir ∧ (diskTable d' i).size = 0) ∧
    (∀ p i, isValidPath p = true → resolve junk d p = some i →
      (∀ junk', resolve junk' d' p = some i) ∧ (diskTable d' i).type = (diskTable d i).type) ∧
    ∀ j < 640, (diskTable d j).Live → (diskTable d j).IsFile → SameFile d d' j) ∧
  ∀ i, resolve junk d path = some i → (createDirectory junk d path).1 = false

/-! ## What a write returns -/

theorem FileTable.update_congr (h : ∀ j < 640, t' j = t j) (i : ℕ) (e : FileEntry) :
    ∀ j < 640, Function.update t' i e j = Function.update t i e j := by
  intro j hj
  by_cases hji : j = i
  · subst hji
    rw [Function.update_self, Function.update_self]
  · rw [Function.update_of_ne hji, Function.update_of_ne hji, h j hj]

theorem createdTable_eq {start start' : UInt32} (hspace : findSpaceForFile d t size = some start)
    (hslot : findFileEntrySlot t = some i)
    (ht : t' = Function.update t i ⟨magic, type.code, start, UInt32.ofNat size⟩) {n : ℕ}
    (hn : ((t' q).size.toNat / 64 + 1) * 64 = n)
    (hdir : findSpaceForFile d (t'.clear q) n = some start') : createdTable d t q type size =
      some (Function.update t' q ⟨magic, (t' q).type, start', UInt32.ofNat n⟩) := by
  subst ht hn
  unfold createdTable
  rw [hspace, hslot]
  dsimp only
  rw [hdir]
  rfl

theorem addFileToDir_cases (junk : Junk) (i : ℕ) (name : List UInt8) (hl : (t q).Live) :
    (findSpaceForFile d (t.clear q) (((t q).size.toNat / 64 + 1) * 64) = none ∧
      addFileToDir junk ⟨d, t⟩ q i name = (false, ⟨d, t⟩)) ∨
    ∃ (start : UInt32) (d' : Drive) (t' : FileTable),
      findSpaceForFile d (t.clear q) (((t q).size.toNat / 64 + 1) * 64) = some start ∧
      t' = Function.update t q
        ⟨magic, (t q).type, start, UInt32.ofNat (((t q).size.toNat / 64 + 1) * 64)⟩ ∧
      d'.sectorCount = d.sectorCount ∧
      addFileToDir junk ⟨d, t⟩ q i name = (true, ⟨saveFileTable d' t', t'⟩) := by
  unfold addFileToDir editFile
  dsimp only
  rw [if_pos hl]
  cases findSpaceForFile d (t.clear q) (((t q).size.toNat / 64 + 1) * 64) with
  | none => exact .inl ⟨rfl, rfl⟩
  | some start => exact .inr ⟨start, _, _, rfl, rfl, writeSectors_sectorCount, rfl⟩

/-- **A path that does not resolve** is created exactly if there is room, and the table is then what it
should be. -/
theorem TreeOk.writeFile_created (h : TreeOk d (diskTable d) r) (hty : RootFirst d type)
    (hv : isValidPath path = true) (hnone : resolve junk d path = none)
    (hq : resolve junk d (splitPath path).1 = some q) (data : Buf)
    (ht : ∀ j < 640, t j = diskTable d j) :
    (createdTable d t q type size = none → (writeFile junk d path data type size).1 = false) ∧
      ∀ T, createdTable d t q type size = some T → ∃ d', writeFile junk d path data type size = (true, d') ∧
        d'.sectorCount = d.sectorCount ∧ ∀ j < 640, diskTable d' j = T j := by
  have hload : ∀ j < 640, loadFileTable (junk.sub 1) d j = diskTable d j := fun j hj =>
    h.loadFileTable_eq _ hj
  have hloadt : ∀ j < 640, loadFileTable (junk.sub 1) d j = t j := fun j hj =>
    (hload j hj).trans (ht j hj).symm
  have hlq := h.live_of_path (h.path_of_parent hv hq)
  have hnew : fileExists (junk.sub 0) d path = false := by
    rw [h.resolve_walk hv] at hnone
    rw [h.fileExists_iff _ hv, hnone]
    rfl
  obtain ⟨hhead, hcomp⟩ := validPath_parent hv
  unfold resolve at hq
  rw [h.resolve_eq _ _ hhead hcomp] at hq
  obtain ⟨hok, -⟩ := h.load ht
  have h₁ := h.le_sectors
  have h₂ := h.sectors_le
  unfold writeFile createdTable
  dsimp only
  rw [if_pos hv, hnew, Bool.not_false, Bool.not_true, if_neg Bool.false_ne_true,
    findSpaceForFile_congr rfl hloadt, findFileEntrySlot_congr hloadt]
  cases hspace : findSpaceForFile d t size with
  | none => exact ⟨fun _ => rfl, fun T e => by cases e⟩
  | some start =>
    cases hslot : findFileEntrySlot t with
    | none => exact ⟨fun _ => rfl, fun T e => by cases e⟩
    | some i =>
      obtain ⟨hi, hl⟩ := findFileEntrySlot_spec hslot
      have hqi : q ≠ i := fun e => hl (ht i hi ▸ e ▸ hlq.2)
      obtain ⟨hst, hst'⟩ := hok.tableOk.start_bounds hspace
      dsimp only
      rw [h.resolve_placed hload ((findFileEntrySlot_congr hloadt).trans hslot) hty _ _ hhead hcomp, hq]
      have htab := FileTable.update_congr hloadt i ⟨magic, type.code, start, UInt32.ofNat size⟩
      have hlive : (Function.update (loadFileTable (junk.sub 1) d) i
          ⟨magic, type.code, start, UInt32.ofNat size⟩ q).Live := by
        rw [Function.update_of_ne hqi, hload q hlq.1]
        exact hlq.2
      dsimp only
      rw [← findSpaceForFile_congr rfl (FileTable.clear_congr htab q), ← htab q hlq.1]
      rcases addFileToDir_cases (d := d) (junk.sub 3) i (splitPath path).2 hlive with
        ⟨e₁, e₂⟩ | ⟨start', d', t', e₁, rfl, hsec, e₂⟩
      · rw [e₁, e₂]
        exact ⟨fun _ => rfl, fun T e => by cases e⟩
      · rw [e₁, e₂]
        refine ⟨fun e => absurd e (by simp), fun T e => ?_⟩
        cases e
        refine ⟨_, rfl, by simpa using hsec, fun j hj => ?_⟩
        rw [diskTable_writeSectors (by omega) (by omega) hj, diskTable_save _ (by omega) (by omega) hj]
        exact FileTable.update_congr htab q _ j hj

theorem TreeOk.writeFile_fst (h : TreeOk d (diskTable d) r) (hty : RootFirst d type)
    (hv : isValidPath path = true) (hnone : resolve junk d path = none)
    (hq : resolve junk d (splitPath path).1 = some q) :
    (writeFile junk d path data type size).1 = roomToCreate d q type size := by
  unfold roomToCreate
  obtain ⟨hfail, hroom⟩ := h.writeFile_created hty hv hnone hq data fun _ _ => rfl
  cases e : createdTable d (diskTable d) q type size with
  | none => exact hfail e
  | some T =>
    obtain ⟨d', e', -⟩ := hroom T e
    rw [e']
    rfl

/-- **A write that succeeds on a path that did not resolve** has made an entry in its parent. -/
theorem TreeOk.writeFile_added (h : TreeOk d (diskTable d) r) (hty : RootFirst d type)
    (hs : SeeksSpace size) (hv : isValidPath path = true) (hnone : resolve junk d path = none)
    (hq : resolve junk d (splitPath path).1 = some q)
    (e : writeFile junk d path data type size = (true, d')) :
    ∃ i start, strSplit path slash = strSplit (splitPath path).1 slash ++ [(splitPath path).2] ∧
      Component (splitPath path).2 ∧
      (dirTree d (diskTable d) r).walk r (strSplit path slash) = none ∧
      (dirTree d (diskTable d) r).walk r (strSplit (splitPath path).1 slash) = some q ∧
      Added d d' (diskTable d') q i ⟨magic, type.code, start, UInt32.ofNat size⟩ (splitPath path).2 := by
  rw [h.resolve_walk hv] at hnone
  have hw := h.tree.walk_root.2 (h.path_of_parent hv hq)
  rcases h.writeFile_cases hty hs e with ⟨i, s', hi, -⟩ | ⟨i, q', start, hsplit, hname, -, hq', hadded, -⟩
  · cases hnone.symm.trans hi
  · obtain rfl : q = q' := Option.some.inj (hw.symm.trans hq')
    exact ⟨i, start, hsplit, hname, hnone, hw, hadded⟩

/-- **A new entry in the root of a fresh drive.** -/
theorem writeFile_freshDrive (hv : isValidPath path = true) (hne : strSplit path slash ≠ [])
    (hp : strSplit (splitPath path).1 slash = []) (hty : RootFirst freshDrive type)
    {T : FileTable} (h : createdTable freshDrive rootTable 0 type size = some T) (data : Buf) :
    ∃ d', writeFile zeroJunk freshDrive path data type size = (true, d') ∧
      d'.sectorCount = freshDrive.sectorCount ∧ ∀ j < 640, diskTable d' j = T j := by
  have hok := freshDrive_sound.treeOk
  have hnone : resolve zeroJunk freshDrive path = none := by
    obtain ⟨c, cs, e⟩ := List.exists_cons_of_ne_nil hne
    rw [hok.resolve_walk hv, e, walk_freshDrive]
  obtain ⟨hhead, hcomp⟩ := validPath_parent hv
  have hroot : resolve zeroJunk freshDrive (splitPath path).1 = some 0 := by
    unfold resolve
    rw [hok.resolve_eq _ _ hhead hcomp, hp]
    rfl
  exact (hok.writeFile_created hty hv hnone hroot data fun j hj => (diskTable_freshDrive hj).symm).2 T h

theorem writeFile_found (hv : isValidPath path = true) (hold : fileExists (junk.sub 0) d path = true)
    (hi : resolvePath (junk.sub 2) d (loadFileTable (junk.sub 1) d) path = some i) :
    writeFile junk d path data type size =
      if (loadFileTable (junk.sub 1) d i).IsFile then
        ((editFile ⟨d, loadFileTable (junk.sub 1) d⟩ i data size).1,
          (editFile ⟨d, loadFileTable (junk.sub 1) d⟩ i data size).2.drive)
      else (false, d) := by
  unfold writeFile
  dsimp only
  rw [if_pos hv, hold, Bool.not_true, Bool.not_false, if_pos rfl, hi]

theorem TreeOk.writeFile_existing (h : TreeOk d (diskTable d) r) (hv : isValidPath path = true)
    (hi : resolve junk d path = some i) : writeFile junk d path data type size =
      if (diskTable d i).IsFile then
        ((editFile ⟨d, loadFileTable (junk.sub 1) d⟩ i data size).1,
          (editFile ⟨d, loadFileTable (junk.sub 1) d⟩ i data size).2.drive)
      else (false, d) := by
  have hlt := (h.live_of_path (h.path_of_resolve hv hi)).1
  rw [h.resolve_walk hv] at hi
  have hold : fileExists (junk.sub 0) d path = true := by
    rw [h.fileExists_iff _ hv, hi]
    rfl
  have hfound : resolvePath (junk.sub 2) d (loadFileTable (junk.sub 1) d) path = some i := by
    rw [h.resolve_eq _ _ (validPath_head hv) (validPath_components hv).1, hi]
  rw [writeFile_found hv hold hfound, h.loadFileTable_eq _ hlt]

theorem TreeOk.resolve_none_of_parent (h : TreeOk d (diskTable d) r) (hv : isValidPath path = true)
    (hq : resolve junk d (splitPath path).1 = some q) (hf : ¬ IsFolder (diskTable d) q) :
    resolve junk d path = none := by
  have hp := h.path_of_parent hv hq
  have hne : path ≠ [slash] := by
    rintro rfl
    exact hf (hp.node_unique h.tree .root ▸ h.isFolder_root)
  cases e : resolve junk d path with
  | none => rfl
  | some i =>
    obtain ⟨cs, q', -, rfl, hp', hf', -⟩ := h.parent_of_resolve hv hne e
    exact absurd (hp.node_unique h.tree hp' ▸ hf') hf

/-! ## Files are no directories -/

theorem TreeOk.sameFile_overwrite (h : TreeOk d (diskTable d) r) {s' : Fs} (hi : i < 640)
    (hs : SeeksSpace size)
    (e : editFile ⟨d, loadFileTable (junk.sub 1) d⟩ i data size = (true, s')) (hj : j < 640)
    (hji : j ≠ i) (hl : (diskTable d j).Live) : SameFile d s'.drive j := by
  have ht : ∀ j < 640, loadFileTable (junk.sub 1) d j = diskTable d j := fun j hj =>
    h.loadFileTable_eq _ hj
  have he := (editFile_edited (h.load ht).1.tableOk hi hs e).1
  refine .of_eq hl ?_ fun k hk => ?_
  · rw [he.saved j hj, he.table_of_ne hji]
    exact ht j hj
  · rw [← ht j hj] at hl hk ⊢
    exact he.others j hj hji hl k hk

theorem Added.sameFile {e : FileEntry} {name : List UInt8}
    (h : Added d d' (diskTable d') q i e name) (hj : j < 640) (hjq : j ≠ q)
    (hl : (diskTable d j).Live) : SameFile d d' j := by
  have hji : j ≠ i := fun e => h.free (e ▸ hl)
  exact .of_eq hl (h.rest j hj hji hjq) (h.contents j hj hji hjq hl)

/-! One write: a record needs a place. -/

theorem createsIn_new {p : ℕ} (h : createsIn junk d path type size = some p) :
    fileExists (junk.sub 0) d path = false := by
  unfold createsIn at h
  split_ifs at h with hold
  exact Bool.eq_false_iff.2 hold

theorem TreeOk.fileExists_eq (h : TreeOk d (diskTable d) r) (junk junk' : Junk) (hv : isValidPath path = true) :
    fileExists junk' d path = (resolve junk d path).isSome := by
  rw [h.fileExists_iff _ hv, h.resolve_walk hv]

/-- **The record goes to the parent**, unless the new entry is a root in front of the root. -/
theorem TreeOk.createsIn_parent (h : TreeOk d (diskTable d) r) (hty : RootFirst d type)
    (hv : isValidPath path = true) {p : ℕ} (hp : createsIn junk d path type size = some p) :
    resolve junk d (splitPath path).1 = some p := by
  obtain ⟨hhead, hcomp⟩ := validPath_parent hv
  unfold createsIn at hp
  split_ifs at hp
  dsimp only at hp
  split at hp
  · rename_i start i hspace hslot
    obtain ⟨hp, -⟩ := Option.filter_eq_some_iff.1 hp
    rw [h.resolve_placed (fun j hj => h.loadFileTable_eq _ hj) hslot hty _ _ hhead hcomp] at hp
    exact (h.resolve_eq _ _ hhead hcomp).trans hp
  · cases hp

theorem TreeOk.createsIn_placed (h : TreeOk d (diskTable d) r) (hv : isValidPath path = true) {p : ℕ}
    (hp : createsIn junk d path type size = some p) (data : Buf) :
    ∃ d' i e start, writeFile junk d path data type size = (true, d') ∧
      Placed d d' p i e start (splitPath path).2 data size := by
  have hnew := createsIn_new hp
  obtain ⟨d', e⟩ := exists_of_fst (x := writeFile junk d path data type size)
    (by rw [writeFile_fst_eq hv hnew, hp]; rfl)
  obtain ⟨p', i, start, start', hp', hplaced⟩ := h.placed hnew e
  obtain rfl := Option.some.inj (hp.symm.trans hp')
  exact ⟨d', i, _, start', e, hplaced⟩

theorem Placed.ne_of_live {p : ℕ} {e : FileEntry} {start : UInt32} {name : List UInt8}
    (h : Placed d d' p i e start name data size) (hl : (diskTable d j).Live) : j ≠ i := by
  rintro rfl
  exact (findFileEntrySlot_spec h.slot).2 hl

theorem ofNat_grown_ne (s : UInt32) : UInt32.ofNat ((s.toNat / 64 + 1) * 64) ≠ s := by
  intro e
  have hs := congrArg UInt32.toNat e
  have := s.toNat_lt
  rw [UInt32.toNat_ofNat'] at hs
  omega

/-! A size that wraps around: the data of any write goes to sector 641. -/

theorem editFile_entries (h₁ : 22 ≤ d.sectorCount) (h₂ : d.sectorCount ≤ 65535)
    (ht : ∀ j < 640, t j = diskTable d j) (hi : i < 640) (hl : (diskTable d i).Live) (data : Buf) (size : ℕ) :
    (diskTable (editFile ⟨d, t⟩ i data size).2.drive i).Live ∧
      ∀ j < 640, j ≠ i → diskTable (editFile ⟨d, t⟩ i data size).2.drive j = diskTable d j := by
  have hl' : (t i).Live := by rwa [ht i hi]
  unfold editFile
  rw [if_pos hl']
  dsimp only
  cases findSpaceForFile d (t.clear i) size with
  | none => exact ⟨hl, fun j _ _ => rfl⟩
  | some start =>
    dsimp only
    refine ⟨?_, fun j hj hji => ?_⟩
    · rw [diskTable_save _ (by simpa using h₁) (by simpa using h₂) hi, Function.update_self]
    · rw [diskTable_save _ (by simpa using h₁) (by simpa using h₂) hj, Function.update_of_ne hji, ht j hj]

theorem editFile_wraps (hs : ¬ SeeksSpace size) (hl : (t i).Live) (d : Drive) (data : Buf) :
    ∃ t', editFile ⟨d, t⟩ i data size = (true, ⟨saveFileTable (writeSectors d 641 data size) t', t'⟩) := by
  unfold editFile
  rw [if_pos hl, findSpaceForFile_wraps hs]
  exact ⟨_, rfl⟩

/-- **An edit that wraps around** keeps what does not start at sector 641. -/
theorem TreeOk.sameFile_wraps (h : TreeOk d (diskTable d) r) {s' : Fs} (hi : i < 640)
    (hli : (diskTable d i).Live) (hs : ¬ SeeksSpace size)
    (e : editFile ⟨d, loadFileTable (junk.sub 1) d⟩ i data size = (true, s')) (hj : j < 640) (hji : j ≠ i)
    (hl : (diskTable d j).Live) (hst : (diskTable d j).size ≠ 0 → (diskTable d j).startSector ≠ 641) :
    SameFile d s'.drive j := by
  have ht : ∀ j < 640, loadFileTable (junk.sub 1) d j = diskTable d j := fun j hj =>
    h.loadFileTable_eq _ hj
  have h₁ := h.le_sectors
  have hentries := (editFile_entries (by omega) h.sectors_le ht hi hli data size).2 j hj hji
  obtain ⟨t', e'⟩ := editFile_wraps hs (ht i hi ▸ hli) d data
  rw [e'] at e hentries
  obtain rfl := (Prod.mk.inj e).2
  refine .of_eq hl hentries fun k hk => ?_
  obtain ⟨ho, hge, -⟩ := h.extents.bounds hj hl hk
  have hne : (diskTable d j).startSector.toNat ≠ 641 := fun e => hst ho.2.2 (UInt32.toNat_inj.mp e)
  have hsec := sectorsOf_wraps hs
  rw [content_save _ hge]
  exact writeSectors_outside (by omega) (.inr (by omega))

/-! Files are kept exactly where they are safe. -/

section Keeps

variable (h : TreeOk d (diskTable d) r) (hv : isValidPath path = true)
include h hv

theorem TreeOk.keepsFiles (hsafe : FilesSafe junk d path type size) (data : Buf) :
    KeepsFiles junk d path (writeFile junk d path data type size) := by
  refine ⟨fun q hq hfile => ?_, fun htrue j hj hl hfile hne => ?_⟩
  · have hnone := h.resolve_none_of_parent hv hq fun hf => hf.not_isFile hfile
    have hnew : fileExists (junk.sub 0) d path = false := by
      rw [h.fileExists_eq junk _ hv, hnone]
      rfl
    have hfst : (writeFile junk d path data type size).1 = false := by
      rw [writeFile_fst_eq hv hnew]
      cases hp : createsIn junk d path type size with
      | none => rfl
      | some p => exact absurd hfile ((hsafe.1 p hp).2 q hq)
    rw [writeFile_false hfst]
    exact ⟨hfst, .of_eq (h.live_of_path (h.path_of_parent hv hq)).2 rfl fun _ _ => rfl⟩
  · obtain ⟨d', e⟩ := exists_of_fst htrue
    rw [e]
    cases hres : resolve junk d path with
    | some i =>
      have hlt := h.live_of_path (h.path_of_resolve hv hres)
      have hji : j ≠ i := by
        rintro rfl
        exact hne hres
      rw [h.writeFile_existing hv hres] at e
      split_ifs at e with hi
      · have he : editFile ⟨d, loadFileTable (junk.sub 1) d⟩ i data size =
            (true, (editFile ⟨d, loadFileTable (junk.sub 1) d⟩ i data size).2) :=
          Prod.ext (Prod.mk.inj e).1 rfl
        rw [← (Prod.mk.inj e).2]
        by_cases hs : SeeksSpace size
        · exact h.sameFile_overwrite hlt.1 hs he hj hji hl
        · refine h.sameFile_wraps hlt.1 hlt.2 hs he hj hji hl fun hsize hst => hne ?_
          exact hsafe.2 hs (.inr ⟨i, hres, hi⟩) j ⟨hj, hl, hfile⟩ hsize hst
      · cases e
    | none =>
      have hnew : fileExists (junk.sub 0) d path = false := by
        rw [h.fileExists_eq junk _ hv, hres]
        rfl
      obtain ⟨p, i, start, start', hp, hplaced⟩ := h.placed hnew e
      have hjp : j ≠ p := by
        rintro rfl
        exact (hsafe.1 j hp).1 ⟨hj, hl, hfile⟩
      refine .of_eq hl (hplaced.rest j hj (hplaced.ne_of_live hl) hjp) fun k hk => ?_
      have ho := (h.extents.bounds hj hl hk).1
      refine hplaced.contents j ho hjp (or_iff_not_imp_left.2 fun hs hst => hne ?_) k hk
      exact hsafe.2 hs (.inl (by rw [hp]; rfl)) j ⟨hj, hl, hfile⟩ ho.2.2 hst

/-- **Below a file or into a file**, a write that succeeds shows. -/
theorem TreeOk.filesSafe_parent (hk : KeepsFiles junk d path (writeFile junk d path data type size)) {p : ℕ}
    (hp : createsIn junk d path type size = some p) : ¬ IsRegular d p ∧
      ∀ q, resolve junk d (splitPath path).1 = some q → ¬ (diskTable d q).IsFile := by
  obtain ⟨d', i, _, start, e, hplaced⟩ := h.createsIn_placed hv hp data
  rw [e] at hk
  refine ⟨fun ⟨hlt, hl, hfile⟩ => ?_, fun q hq hfile => ?_⟩
  · have hnone : resolve junk d path ≠ some p := by
      intro hres
      have hnew := createsIn_new hp
      rw [h.fileExists_eq junk _ hv, hres] at hnew
      cases hnew
    obtain ⟨-, -, hsize, -⟩ := hk.2 rfl p hlt hl hfile hnone
    rw [(hplaced.parent (hplaced.ne_of_live hl) hlt).2] at hsize
    exact ofNat_grown_ne _ hsize
  · cases (hk.1 q hq hfile).1

/-- **Where the data goes to sector 641**, a file that is there shows it. -/
theorem TreeOk.filesSafe_wraps
    (hk : ∀ data, KeepsFiles junk d path (writeFile junk d path data type size)) (hs : ¬ SeeksSpace size)
    (hw : (createsIn junk d path type size).isSome ∨
      ∃ i, resolve junk d path = some i ∧ (diskTable d i).IsFile)
    (hj : IsRegular d j) (hsize : (diskTable d j).size ≠ 0) (hst : (diskTable d j).startSector = 641) :
    resolve junk d path = some j := by
  by_contra hne
  have hpos : 0 < (diskTable d j).size.toNat :=
    Nat.pos_of_ne_zero fun e => hsize (UInt32.toNat_inj.mp e)
  have hstop := h.extents.stop j ⟨hj.1, hj.2.1, hsize⟩
  have hsec := FileEntry.sectors_pos hsize
  have hsc : 642 < d.sectorCount := by
    have h641 : (diskTable d j).startSector.toNat = 641 := by
      rw [hst]
      rfl
    unfold FileEntry.stop at hstop
    omega
  -- a byte that is not the first one of the file
  obtain ⟨b, hb⟩ : ∃ b : UInt8, b ≠ d.bytes (641 * 512 + 0) := by
    by_cases h₀ : d.bytes (641 * 512 + 0) = 0
    · exact ⟨1, by rw [h₀]; decide⟩
    · exact ⟨0, Ne.symm h₀⟩
  have hshow : ∀ d', writeFile junk d path (fun _ => b) type size = (true, d') →
      diskTable d' j = diskTable d j → d'.bytes (641 * 512 + 0) = b → False := by
    intro d' e he hbyte
    have hkeep := hk fun _ => b
    rw [e] at hkeep
    have hc := (hkeep.2 rfl j hj.1 hj.2.1 hj.2.2 hne).2.2.2 0 hpos
    rw [he, content, content, hst] at hc
    exact hb (hbyte.symm.trans hc)
  rcases hw with hw | ⟨i, hi, hfile⟩
  · obtain ⟨p, hp⟩ := Option.isSome_iff_exists.1 hw
    obtain ⟨d', i, _, start, e, hplaced⟩ := h.createsIn_placed hv hp fun _ => b
    have hjp : j ≠ p := by
      rintro rfl
      exact (h.filesSafe_parent hv (hk fun _ => 0) hp).1 hj
    exact hshow d' e (hplaced.rest j hj.1 (hplaced.ne_of_live hj.2.1) hjp)
      (hplaced.bytes hs hsc 0 (by decide))
  · have hlt := h.live_of_path (h.path_of_resolve hv hi)
    have h₁ := h.le_sectors
    have ht : ∀ j < 640, loadFileTable (junk.sub 1) d j = diskTable d j := fun j hj =>
      h.loadFileTable_eq _ hj
    have hji : j ≠ i := by
      rintro rfl
      exact hne hi
    have hentries := (editFile_entries (by omega) h.sectors_le ht hlt.1 hlt.2 (fun _ => b) size).2 j hj.1 hji
    have e : writeFile junk d path (fun _ => b) type size = _ := h.writeFile_existing hv hi
    obtain ⟨t', e'⟩ := editFile_wraps hs (ht i hlt.1 ▸ hlt.2) d fun _ => b
    rw [if_pos hfile, e'] at e
    rw [e'] at hentries
    refine hshow _ e hentries ?_
    dsimp only
    rw [saveFileTable_outside _ (by omega)]
    exact writeSectors_wraps hs hsc (by decide)

end Keeps

/-- **Files are no directories**, and a write keeps the files at other paths, exactly where they are safe:
for paths, types and sizes of every kind. -/
theorem files_not_directories (h : WellFormed d) (hu : RootUnlisted d) (h₁ : 642 ≤ d.sectorCount)
    (h₂ : d.sectorCount ≤ 65535) (hv : isValidPath path = true) (type : FileType) (size : ℕ)
    (junk : Junk) :
    ((∀ data, KeepsFiles junk d path (writeFile junk d path data type size)) ↔
      FilesSafe junk d path type size) ∧
    (KeepsFiles junk d path (createDirectory junk d path) ↔ FilesSafe junk d path .directory 0) := by
  obtain ⟨r, hd⟩ := h.sound hu h₁ h₂
  have hok := hd.treeOk
  refine ⟨⟨fun hk => ⟨fun p hp => hok.filesSafe_parent hv (hk fun _ => 0) hp, fun hs hw j hj hsize hst =>
    hok.filesSafe_wraps hv hk hs hw hj hsize hst⟩, hok.keepsFiles hv⟩, fun hk => ?_, fun hsafe => ?_⟩
  · exact ⟨fun p hp => hok.filesSafe_parent hv hk hp, fun hs => absurd (.inl rfl) hs⟩
  · exact hok.keepsFiles hv hsafe _

/-- A drive with one file, `/a`. -/
def oneFile : Drive := (writeFile zeroJunk freshDrive [47, 97] (fun _ => 7) .file 3).2

theorem writeFile_oneFile :
    writeFile zeroJunk freshDrive [47, 97] (fun _ => 7) .file 3 = (true, oneFile) := by
  obtain ⟨d', e⟩ := exists_of_fst writeFile_freshDrive_fst
  rw [oneFile, e]

theorem oneFile_written : ∃ i, Written freshDrive oneFile 0 i [[97]] (fun _ => 7) 3 :=
  written_freshDrive (by decide) rfl (by decide) writeFile_oneFile

theorem oneFile_resolve (h : Written freshDrive oneFile 0 i [[97]] (fun _ => 7) 3)
    (junk : Junk) : resolve junk oneFile [47, 97] = some i := by
  rw [h.sound.treeOk.resolve_walk (by decide)]
  exact h.here

theorem oneFile_listed {i : ℕ} (h : Written freshDrive oneFile 0 i [[97]] (fun _ => 7) 3) :
    ([97], i) ∈ dirEntries oneFile (diskTable oneFile 0) := by
  have hok := h.sound.treeOk
  have hp : (dirTree oneFile (diskTable oneFile) 0).Path ([] ++ [[97]]) i :=
    hok.tree.walk_root.1 h.here
  obtain ⟨q, hq, -, hm⟩ := hp.last
  obtain rfl : 0 = q := hq.node_unique hok.tree .root
  rwa [TreeOk.entries_eq hok.isFolder_root] at hm

theorem files_not_directories_next_to :
    KeepsFiles zeroJunk oneFile [47, 98] (writeFile zeroJunk oneFile [47, 98] (fun _ => 7) .file 3) := by
  obtain ⟨i, h⟩ := oneFile_written
  have hok := h.sound.treeOk
  obtain ⟨hwf, hu⟩ := h.sound.wellFormed
  have hv : isValidPath [47, 98] = true := by decide
  -- the parent is the root
  have hroot : ∀ q, resolve zeroJunk oneFile (splitPath [47, 98]).1 = some q →
      ¬ (diskTable oneFile q).IsFile := by
    intro q hq
    obtain rfl : 0 = q := (hok.path_of_parent hv hq).node_unique hok.tree .root
    exact hok.isFolder_root.not_isFile
  refine (files_not_directories hwf hu hok.le_sectors hok.sectors_le hv .file 3 zeroJunk).1.mpr
    ⟨fun p hp => ⟨fun hreg => ?_, hroot⟩, fun hs => absurd (.of_le (by decide)) hs⟩ fun _ => 7
  exact hroot p (hok.createsIn_parent (.of_ne (by decide)) hv hp) hreg.2.2

/-- The table of `oneFile`. -/
def oneFileTable : FileTable :=
  Function.update (Function.update rootTable 1 ⟨magic, FileType.file.code, 641, 3⟩) 0
    ⟨magic, FileType.rootDirectory.code, 642, 64⟩

theorem createdTable_freshDrive : createdTable freshDrive rootTable 0 .file 3 = some oneFileTable := by
  have hspace : findSpaceForFile freshDrive rootTable 3 = some 641 := by decide +kernel
  have hslot : findFileEntrySlot rootTable = some 1 := by decide +kernel
  have hdir : findSpaceForFile freshDrive (FileTable.clear (Function.update rootTable 1
      ⟨magic, FileType.file.code, 641, 3⟩) 0) 64 = some 642 := by decide +kernel
  exact createdTable_eq hspace hslot rfl rfl hdir

theorem oneFile_created : oneFile.sectorCount = freshDrive.sectorCount ∧
    ∀ j < 640, diskTable oneFile j = oneFileTable j := by
  have hv : isValidPath [47, 97] = true := by decide
  obtain ⟨d', e, h⟩ := writeFile_freshDrive hv (by decide) rfl (.of_ne (by decide))
    createdTable_freshDrive fun _ => 7
  obtain ⟨-, rfl⟩ := Prod.mk.inj (writeFile_oneFile.symm.trans e)
  exact h

theorem findSpaceForFile_oneFile (t : FileTable) (size : ℕ) :
    findSpaceForFile oneFile t size = findSpaceForFile freshDrive t size :=
  findSpaceForFile_congr oneFile_created.1 (fun _ _ => rfl) size

theorem oneFile_room : findSpaceForFile oneFile oneFileTable 3 = some 643 ∧
    findFileEntrySlot oneFileTable = some 2 := by
  rw [findSpaceForFile_oneFile]
  constructor <;> decide +kernel

theorem diskTable_oneFile (hj : j < 640) : diskTable oneFile j = oneFileTable j := oneFile_created.2 j hj

theorem oneFile_file (hj : j < 640) (hf : (diskTable oneFile j).IsFile)
    (hl : (diskTable oneFile j).Live) : j = 1 := by
  rw [diskTable_oneFile hj] at hf hl
  by_contra h₁
  by_cases h₀ : j = 0
  · subst h₀
    exact absurd hf (by decide)
  · rw [oneFileTable, Function.update_of_ne h₀, Function.update_of_ne h₁, rootTable, if_neg h₀] at hl
    exact absurd hl (by decide)

/-- The drive a call leaves. Where the kernel compares a projection of the call, it runs the call. -/
def driveAfter (r : Bool × Drive) : Drive := r.2

theorem driveAfter_eq {r : Bool × Drive} (e : r = (true, d')) : driveAfter r = d' := by
  rw [e]
  rfl

/-- A drive with two files, `/a` and `/b`. -/
def twoFiles : Drive := driveAfter (writeFile zeroJunk oneFile [47, 98] (fun _ => 7) .file 3)

/-- The table of `twoFiles`. -/
def twoFilesTable : FileTable :=
  Function.update (Function.update oneFileTable 2 ⟨magic, FileType.file.code, 643, 3⟩) 0
    ⟨magic, FileType.rootDirectory.code, 642, 128⟩

theorem writeFile_twoFiles : writeFile zeroJunk oneFile [47, 98] (fun _ => 7) .file 3 = (true, twoFiles) ∧
    ∀ j < 640, diskTable twoFiles j = twoFilesTable j := by
  obtain ⟨i, h⟩ := oneFile_written
  have hok := h.sound.treeOk
  have hv : isValidPath [47, 98] = true := by decide
  have hnone : resolve zeroJunk oneFile [47, 98] = none := by
    rw [hok.resolve_walk hv, h.elsewhere _ (by decide)]
    exact walk_freshDrive _ _
  have hroot : resolve zeroJunk oneFile (splitPath [47, 98]).1 = some 0 :=
    hok.resolve_eq _ _ rfl (validPath_parent hv).2
  obtain ⟨hspace, hslot⟩ := oneFile_room
  have hdir : findSpaceForFile oneFile (FileTable.clear (Function.update oneFileTable 2
      ⟨magic, FileType.file.code, 643, 3⟩) 0) 128 = some 642 := by
    rw [findSpaceForFile_oneFile]
    decide +kernel
  obtain ⟨d', e, -, htable⟩ := (hok.writeFile_created (.of_ne (by decide)) hv hnone hroot
    (fun _ => 7) fun j hj => (diskTable_oneFile hj).symm).2 _ (createdTable_eq hspace hslot rfl rfl hdir)
  obtain rfl : twoFiles = d' := driveAfter_eq e
  exact ⟨e, htable⟩

theorem twoFiles_written : ∃ i, Written oneFile twoFiles 0 i [[98]] (fun _ => 7) 3 := by
  obtain ⟨i, h⟩ := oneFile_written
  refine h.sound.writeFile (by decide) (fun q hq => ?_) (by decide) writeFile_twoFiles.1
  cases hq
  exact h.sound.treeOk.isFolder_root

theorem length_twoFiles : (dirEntries twoFiles (diskTable twoFiles 0)).length = 2 := by
  rw [length_dirEntries, writeFile_twoFiles.2 0 (by decide)]
  rfl

/-- **Writing `/a/b` where `/a` is a file**: the call succeeds, and the file has grown from 3 bytes to the
64 of a directory entry. -/
theorem write_below_file : WellFormed oneFile ∧ RootUnlisted oneFile ∧ 642 ≤ oneFile.sectorCount ∧
    oneFile.sectorCount ≤ 65535 ∧ isValidPath [47, 97, 47, 98] = true ∧
    resolve zeroJunk oneFile (splitPath [47, 97, 47, 98]).1 = some 1 ∧ (diskTable oneFile 1).IsFile ∧
    (diskTable oneFile 1).size = 3 ∧
    ∃ d', writeFile zeroJunk oneFile [47, 97, 47, 98] (fun _ => 7) .file 3 = (true, d') ∧
      (diskTable d' 1).size = 64 := by
  obtain ⟨i, h⟩ := oneFile_written
  have hok := h.sound.treeOk
  obtain ⟨hwf, hu⟩ := h.sound.wellFormed
  obtain rfl := oneFile_file h.lt h.file h.live
  have hv : isValidPath [47, 97, 47, 98] = true := by decide
  have hq : resolve zeroJunk oneFile (splitPath [47, 97, 47, 98]).1 = some 1 := by
    rw [← h.here]
    exact hok.resolve_eq _ _ rfl (validPath_parent hv).2
  have hnone := hok.resolve_none_of_parent hv hq fun hf => hf.not_isFile h.file
  obtain ⟨hspace, hslot⟩ := oneFile_room
  have hdir : findSpaceForFile oneFile (FileTable.clear (Function.update oneFileTable 2
      ⟨magic, FileType.file.code, 643, 3⟩) 1) 64 = some 641 := by
    rw [findSpaceForFile_oneFile]
    decide +kernel
  obtain ⟨d', e, -, htable⟩ := (hok.writeFile_created (.of_ne (by decide)) hv hnone hq (fun _ => 7)
    fun j hj => (diskTable_oneFile hj).symm).2 _ (createdTable_eq hspace hslot rfl rfl hdir)
  refine ⟨hwf, hu, hok.le_sectors, hok.sectors_le, hv, hq, h.file, ?_, d', e, ?_⟩
  · rw [diskTable_oneFile (by decide)]
    rfl
  · rw [htable 1 (by decide), Function.update_self]
    rfl

/-! ## Creating a directory -/

/-- **Where a new directory is listed**, the drive is in order again. -/
theorem Added.createsDirectory {start : UInt32} (h : Added d d' (diskTable d') q i
      ⟨magic, FileType.directory.code, start, UInt32.ofNat 0⟩ (splitPath path).2)
    (hok : TreeOk d (diskTable d) r) (hc : ∀ c ∈ strSplit path slash, c.length < 60)
    (hsplit : strSplit path slash = strSplit (splitPath path).1 slash ++ [(splitPath path).2])
    (hname : Component (splitPath path).2)
    (hnone : (dirTree d (diskTable d) r).walk r (strSplit path slash) = none)
    (hq : (dirTree d (diskTable d) r).walk r (strSplit (splitPath path).1 slash) = some q)
    (hf : IsFolder (diskTable d) q) :
    TreeOk d' (diskTable d') r ∧ ∀ cs x, (dirTree d' (diskTable d') r).Path cs x ↔
      (dirTree d (diskTable d) r).Path cs x ∨ cs = strSplit path slash ∧ x = i := by
  have hp := hok.tree.walk_root.1 hq
  have htake : (splitPath path).2.take 59 = (splitPath path).2 := by
    have := hc (splitPath path).2 (by rw [hsplit]; simp)
    exact List.take_of_length_le (by omega)
  have hleaf : (FileEntry.mk magic FileType.directory.code start (UInt32.ofNat 0)).Leaf := .inr ⟨rfl, rfl⟩
  rw [hsplit] at hnone ⊢
  have hfresh := hok.fresh_name hp hf hnone
  rw [← htake] at hfresh
  refine ⟨h.treeOk hok hf hleaf hfresh hname.ne_nil, fun cs x => ?_⟩
  rw [h.path hok hf hleaf hfresh hp, htake]

/-- **An entry below what is no folder is not found**: paths lead where they did. -/
theorem Added.resolve_of_not_folder {e : FileEntry} {name : List UInt8}
    (h : Added d d' (diskTable d') q i e name) (hok : TreeOk d (diskTable d) r)
    (hq : ¬ IsFolder (diskTable d) q) (he : ¬ e.IsRoot) (hv : isValidPath path = true) :
    resolve junk d' path = (dirTree d (diskTable d) r).walk r (strSplit path slash) := by
  have hfold : ∀ p, IsFolder (diskTable d) p ∨ IsFolder ((diskTable d').asFile i) p →
      IsFolder (diskTable d) p ∧ p ≠ i ∧ p ≠ q := by
    intro p hp
    have hpi : p ≠ i := by
      rintro rfl
      exact hp.elim (fun hp => h.free hp.2.1) not_isFolder_asFile
    rw [isFolder_congr (FileTable.asFile_of_ne hpi), h.isFolder_iff hpi, or_self] at hp
    exact ⟨hp, hpi, fun e => hq (e ▸ hp)⟩
  have hsame : SameFolders d (diskTable d) d' ((diskTable d').asFile i) := by
    intro p hp
    obtain ⟨hp, hpi, hpq⟩ := hfold p hp
    rw [FileTable.asFile_of_ne hpi]
    exact ⟨h.rest p hp.1 hpi hpq, h.contents p hp.1 hpi hpq hp.2.1⟩
  have hok' : TreeOk d' ((diskTable d').asFile i) r := by
    refine hok.congr hsame h.sectors (fun j hj hl => ?_) h.extents.asFile
    have hji : j ≠ i := fun e => h.free (e ▸ hl)
    rw [FileTable.asFile_of_ne hji]
    exact (h.entry_iff hj hji).1.2 hl
  have hle := hok'.le_sectors
  have hload : ∀ j < 640, loadFileTable (junk.sub 0) d' j = diskTable d' j := fun j hj =>
    loadFileTable_apply _ (by omega) hok'.sectors_le hj
  have hroot : ¬ (diskTable d' i).IsRoot := by rwa [h.entry]
  unfold resolve
  rw [hok'.resolvePath_sameBut (.asFile hload h.lt hroot) (validPath_head hv)
    (validPath_components hv).1 (fun csi hp _ => ?_), hsame.dirTree]
  rw [hsame.dirTree] at hp
  exact absurd (hok.live_of_path hp).2 h.free

theorem TreeOk.createDirectory_existing (h : TreeOk d (diskTable d) r) (hv : isValidPath path = true)
    (hi : resolve junk d path = some i) :
    (createDirectory junk d path).1 = decide (diskTable d i).IsFile := by
  have hlt := h.live_of_path (h.path_of_resolve hv hi)
  have hl : (loadFileTable (junk.sub 1) d i).Live := by
    rw [h.loadFileTable_eq _ hlt.1]
    exact hlt.2
  rw [createDirectory, h.writeFile_existing hv hi]
  split_ifs with hfile
  · dsimp only
    rw [editFile_fst _ hl, findSpaceForFile_zero, decide_eq_true hfile]
    rfl
  · rw [decide_eq_false hfile]

/-- **A drive with a new directory in one of its folders holds a tree.** -/
theorem DiskSound.createDirectory (h : DiskSound d r) (hv : isValidPath path = true)
    (hc : ∀ c ∈ strSplit path slash, c.length < 60) (hnone : resolve junk d path = none)
    (hq : resolve junk d (splitPath path).1 = some q) (hf : IsFolder (diskTable d) q)
    (e : createDirectory junk d path = (true, d')) : DiskSound d' r ∧
      ∃ i, (dirTree d' (diskTable d') r).Path (strSplit path slash) i ∧ (diskTable d' i).IsDir := by
  have hok := h.treeOk
  obtain ⟨i, start, hsplit, hname, hnone, hq, hadded⟩ :=
    hok.writeFile_added (.of_ne (by decide)) (.inl rfl) hv hnone hq e
  obtain ⟨hok', hpath⟩ := hadded.createsDirectory hok hc hsplit hname hnone hq hf
  refine ⟨⟨hok', fun j hj hl => ?_⟩, i, (hpath _ _).2 (.inr ⟨rfl, rfl⟩), by rw [hadded.entry]⟩
  by_cases hji : j = i
  · exact ⟨_, (hpath _ _).2 (.inr ⟨rfl, hji⟩)⟩
  · obtain ⟨cs, hcs⟩ := h.path j hj ((hadded.entry_iff hj hji).1.1 hl)
    exact ⟨cs, (hpath _ _).2 (.inl hcs)⟩

/-- **When creating a directory is faithful**: the path is no file, and what is no folder has no room. -/
def CreateAllowed (junk : Junk) (d : Drive) (path : List UInt8) : Prop :=
  (∀ i, resolve junk d path = some i → ¬ (diskTable d i).IsFile) ∧
  ∀ q, resolve junk d (splitPath path).1 = some q → ¬ IsFolder (diskTable d) q →
    roomToCreate d q .directory 0 = false

theorem TreeOk.createAllowed (h : TreeOk d (diskTable d) r) (hv : isValidPath path = true)
    (hf : CreatesFaithfully junk d path) : CreateAllowed junk d path := by
  refine ⟨fun i hi hfile => ?_, fun q hq hnot => ?_⟩
  · have hfst := hf.2 i hi
    rw [h.createDirectory_existing hv hi, decide_eq_true hfile] at hfst
    cases hfst
  · by_contra hroom
    have hnone := h.resolve_none_of_parent hv hq hnot
    have hfst : (createDirectory junk d path).1 = true := by
      rw [createDirectory, h.writeFile_fst (.of_ne (by decide)) hv hnone hq]
      exact Bool.eq_true_of_not_eq_false hroom
    rcases e : createDirectory junk d path with ⟨b, d'⟩
    rw [e] at hfst
    dsimp only at hfst
    subst hfst
    obtain ⟨-, ⟨i, hi, -⟩, -⟩ := hf.1 d' e
    obtain ⟨i', start, -, -, hnone, -, hadded⟩ := h.writeFile_added (.of_ne (by decide)) (.inl rfl) hv hnone hq e
    have hi' := hi junk
    rw [hadded.resolve_of_not_folder h hnot (FileType.code_ne_root (by decide)) hv, hnone] at hi'
    cases hi'

theorem TreeOk.createsFaithfully (h : TreeOk d (diskTable d) r) (hv : isValidPath path = true)
    (hc : ∀ c ∈ strSplit path slash, c.length < 60) (ha : CreateAllowed junk d path) :
    CreatesFaithfully junk d path := by
  refine ⟨fun d' e => ?_, fun i hi => ?_⟩
  · rcases h.writeFile_cases (.of_ne (by decide)) (.inl rfl) e with
      ⟨i, s', hi, hfile, -⟩ | ⟨i, q, start, hsplit, hname, hnone, hq, hadded, -⟩
    · exact absurd hfile (ha.1 i ((h.resolve_walk hv).trans hi))
    · have hnone' : resolve junk d path = none := (h.resolve_walk hv).trans hnone
      have hq' : resolve junk d (splitPath path).1 = some q := by
        obtain ⟨hhead, hcomp⟩ := validPath_parent hv
        exact (h.resolve_eq _ _ hhead hcomp).trans hq
      have hf : IsFolder (diskTable d) q := by
        by_contra hnot
        have hfst : (createDirectory junk d path).1 = roomToCreate d q .directory 0 :=
          h.writeFile_fst (.of_ne (by decide)) hv hnone' hq'
        rw [ha.2 q hq' hnot, e] at hfst
        cases hfst
      obtain ⟨hok', hpath⟩ := hadded.createsDirectory h hc hsplit hname hnone hq hf
      refine ⟨hnone', ⟨i, fun junk' => ?_, hadded.lt, ?_, ?_, ?_⟩, fun p j hpv hj => ⟨fun junk' => ?_, ?_⟩,
        fun j hj hl hfile => ?_⟩
      · exact (hok'.resolve_iff hv).2 ((hpath _ _).2 (.inr ⟨rfl, rfl⟩))
      · rw [hadded.entry]
      · rw [hadded.entry]
      · rw [hadded.entry]
        rfl
      · exact (hok'.resolve_iff hpv).2 ((hpath _ _).2 (.inl (h.path_of_resolve hpv hj)))
      · have hlt := h.live_of_path (h.path_of_resolve hpv hj)
        exact (hadded.entry_iff hlt.1 fun e => hadded.free (e ▸ hlt.2)).2
      · refine hadded.sameFile hj ?_ hl
        rintro rfl
        exact hf.not_isFile hfile
  · rw [h.createDirectory_existing hv hi]
    exact decide_eq_false (ha.1 i hi)

/-- **Creating a directory is faithful** exactly where it is allowed. -/
theorem create_directory_faithful (h : WellFormed d) (hu : RootUnlisted d) (h₁ : 642 ≤ d.sectorCount)
    (h₂ : d.sectorCount ≤ 65535) (hv : isValidPath path = true)
    (hc : ∀ c ∈ strSplit path slash, c.length < 60) (junk : Junk) :
    CreatesFaithfully junk d path ↔ CreateAllowed junk d path := by
  obtain ⟨r, hd⟩ := h.sound hu h₁ h₂
  exact ⟨hd.treeOk.createAllowed hv, hd.treeOk.createsFaithfully hv hc⟩

theorem createDirectory_freshDrive : (createDirectory zeroJunk freshDrive [47, 97]).1 = true := by
  have hroom : (createdTable freshDrive rootTable 0 .directory 0).isSome = true := by decide +kernel
  obtain ⟨T, hT⟩ := Option.isSome_iff_exists.1 hroom
  have hv : isValidPath [47, 97] = true := by decide
  obtain ⟨d', e, -⟩ := writeFile_freshDrive hv (by decide) rfl (.of_ne (by decide)) hT fun _ => 0
  rw [createDirectory, e]

theorem create_directory_faithful_fresh_drive : CreatesFaithfully zeroJunk freshDrive [47, 97] ∧
    (createDirectory zeroJunk freshDrive [47, 97]).1 = true := by
  have hok := freshDrive_sound.treeOk
  have hv : isValidPath [47, 97] = true := by decide
  refine ⟨(create_directory_faithful wellFormed_freshDrive rootUnlisted_freshDrive (by decide) (by decide)
    hv (by decide) zeroJunk).mpr ⟨fun j hj hfile => ?_, fun q hq hnot => ?_⟩,
    createDirectory_freshDrive⟩
  · obtain ⟨hlt, hl⟩ := hok.live_of_path (hok.path_of_resolve hv hj)
    obtain rfl := freshDrive_live hlt hl
    exact freshDrive_root.not_isFile hfile
  · obtain rfl : 0 = q := (hok.path_of_parent hv hq).node_unique hok.tree .root
    exact absurd hok.isFolder_root hnot

/-- **Creating the directory `/a` where `/a` is a file**: the call returns true, and the file is empty. -/
theorem create_directory_over_file : WellFormed oneFile ∧ RootUnlisted oneFile ∧
    642 ≤ oneFile.sectorCount ∧ oneFile.sectorCount ≤ 65535 ∧ isValidPath [47, 97] = true ∧
    resolve zeroJunk oneFile [47, 97] = some 1 ∧ (diskTable oneFile 1).size = 3 ∧
    ∃ d', createDirectory zeroJunk oneFile [47, 97] = (true, d') ∧ (diskTable d' 1).IsFile ∧
      (diskTable d' 1).size = 0 := by
  obtain ⟨i, h⟩ := oneFile_written
  have hok := h.sound.treeOk
  obtain ⟨hwf, hu⟩ := h.sound.wellFormed
  obtain rfl := oneFile_file h.lt h.file h.live
  have hv : isValidPath [47, 97] = true := by decide
  have hres := oneFile_resolve h zeroJunk
  have hsize : (diskTable oneFile 1).size = 3 := by
    rw [diskTable_oneFile (by decide)]
    rfl
  refine ⟨hwf, hu, hok.le_sectors, hok.sectors_le, hv, hres, hsize, ?_⟩
  have hfst := hok.createDirectory_existing hv hres
  rw [decide_eq_true h.file] at hfst
  rcases e : createDirectory zeroJunk oneFile [47, 97] with ⟨b, d'⟩
  rw [e] at hfst
  dsimp only at hfst
  subst hfst
  refine ⟨d', rfl, ?_⟩
  rcases hok.writeFile_cases (.of_ne (by decide)) (.inl rfl) e with
    ⟨i, s', hi, hfile, he, rfl⟩ | ⟨i, q, start, -, -, hnone, -⟩
  · obtain rfl : 1 = i := Option.some.inj (hres.symm.trans ((hok.resolve_walk hv).trans hi))
    have hedit := (editFile_edited (hok.load fun j hj => hok.loadFileTable_eq _ hj).1.tableOk h.lt
      (.inl rfl) he).1
    obtain ⟨start, htable⟩ := hedit.table
    rw [FileEntry.IsFile, hedit.saved 1 h.lt, htable, Function.update_self]
    dsimp only
    rw [hok.loadFileTable_eq _ h.lt]
    exact ⟨h.file, rfl⟩
  · rw [hok.resolve_walk hv, hnone] at hres
    cases hres

end EitanOS
