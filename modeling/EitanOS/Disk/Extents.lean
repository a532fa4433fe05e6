import EitanOS.Disk.Atomic
import EitanOS.Disk.Layout
import EitanOS.Disk.Space
import Mathlib.Logic.Relation

/-!
# File extents over whole runs

`DriveOk d`: the file table on disk keeps the extents invariant. Each operation that succeeds writes
back a table that keeps it (`TableOk.editFile`), and one that fails writes nothing; so it holds after
every run from a freshly made root (**`run_extents`**).
-/

namespace EitanOS

open Bytes

/-- A drive of `sc` sectors the file system works on, with its extents in order. -/
structure DriveOk (sc : ℕ) (d : Drive) : Prop where
  sectors : d.sectorCount = sc
  le_sectors : 642 ≤ sc
  sectors_le : sc ≤ 65535
  extents : ExtentsOk sc (diskTable d)

variable {d d' : Drive} {t t' : FileTable} {sc i : ℕ}

theorem ExtentsOk.congr_extent (h : ExtentsOk sc t) (e : ∀ i < 640,
      (t' i).magicNumber = (t i).magicNumber ∧ (t' i).startSector = (t i).startSector ∧
        (t' i).size = (t i).size) : ExtentsOk sc t' := by
  have hocc : ∀ i, Occupied t' i → Occupied t i ∧ (t' i).startSector = (t i).startSector ∧
      (t' i).stop = (t i).stop := fun i ⟨hi, hl, hs⟩ => by
    obtain ⟨h₁, h₂, h₃⟩ := e i hi
    refine ⟨⟨hi, h₁.symm.trans hl, h₃ ▸ hs⟩, h₂, ?_⟩
    rw [FileEntry.stop, FileEntry.stop, FileEntry.sectors, FileEntry.sectors, h₂, h₃]
  refine ⟨fun i hi => ?_, fun i hi => ?_, fun i j hi hj hij => ?_⟩
  · obtain ⟨ho, h₁, -⟩ := hocc i hi
    rw [h₁]
    exact h.start i ho
  · obtain ⟨ho, -, h₂⟩ := hocc i hi
    rw [h₂]
    exact h.stop i ho
  · obtain ⟨ho, h₁, h₂⟩ := hocc i hi
    obtain ⟨ho', h₁', h₂'⟩ := hocc j hj
    rw [h₁, h₂, h₁', h₂']
    exact h.disjoint i j ho ho' hij

theorem ExtentsOk.congr (h : ExtentsOk sc t) (e : ∀ i < 640, t' i = t i) : ExtentsOk sc t' :=
  h.congr_extent fun i hi => by
    rw [e i hi]
    exact ⟨rfl, rfl, rfl⟩

theorem DriveOk.load (h : DriveOk sc d) (junk : Junk) : ExtentsOk sc (loadFileTable junk d) := by
  have h₁ := h.sectors
  have h₂ := h.le_sectors
  have h₃ := h.sectors_le
  exact h.extents.congr fun i hi => loadFileTable_apply junk (by omega) (by omega) hi

/-- What `edit_file` and the operations before it keep: the extents of the table in memory, on a
drive of the same size. -/
structure TableOk (sc : ℕ) (s : Fs) : Prop where
  sectors : s.drive.sectorCount = sc
  le_sectors : 642 ≤ sc
  sectors_le : sc ≤ 65535
  extents : ExtentsOk sc s.table

theorem DriveOk.tableOk (h : DriveOk sc d) (junk : Junk) : TableOk sc ⟨d, loadFileTable junk d⟩ :=
  ⟨h.sectors, h.le_sectors, h.sectors_le, h.load junk⟩

theorem TableOk.save {s : Fs} (h : TableOk sc s) (h' : ExtentsOk sc t) :
    DriveOk sc (saveFileTable s.drive t) := by
  have h₁ := h.sectors
  have h₂ := h.le_sectors
  have h₃ := h.sectors_le
  refine ⟨by simpa using h₁, h₂, h₃, ?_⟩
  exact h'.congr fun i hi => diskTable_save t (by omega) (by omega) hi

theorem sectors_ofNat (size : ℕ) (type start : UInt32) :
    (FileEntry.mk magic type start (UInt32.ofNat size)).sectors = (size % 2 ^ 32 + 511) / 512 := by
  rw [FileEntry.sectors, UInt32.toNat_ofNat']

/-- **Placing an entry where `find_space_for_file` says**, with its old extent left out of the
search or in it. -/
theorem TableOk.place {s : Fs} (h : TableOk sc s) {size : ℕ} (hs : SeeksSpace size) {start : UInt32}
    (type : UInt32) (ht : ∀ j, Occupied s.table j → j ≠ i → Occupied t j ∧ t j = s.table j)
    (hx : ExtentsOk sc t) (e : findSpaceForFile s.drive t size = some start) :
    ExtentsOk sc (Function.update s.table i ⟨magic, type, start, UInt32.ofNat size⟩) ∧
      641 ≤ start.toNat ∧ start.toNat ≤ 65535 := by
  obtain ⟨rfl, hle, hsc, hx₀⟩ := h
  obtain ⟨h₁, h₂, h₃⟩ := findSpaceForFile_spec hx hle hsc (by omega)
    (findSpaceForFile_mod hx hle hsc hs e).1
  have hstop : (FileEntry.mk magic type start (UInt32.ofNat size)).stop =
      start.toNat + (size % 2 ^ 32 + 511) / 512 := by
    rw [FileEntry.stop, sectors_ofNat]
  refine ⟨hx₀.place h₁ (by omega) fun j hj hji => ?_, h₁, by omega⟩
  obtain ⟨hj', e'⟩ := ht j hj hji
  have := h₃ j hj'
  rw [e'] at this
  rw [hstop]
  exact this

/-- **`edit_file` keeps the invariant**, and the table on disk is then the one in memory. -/
theorem TableOk.editFile {s s' : Fs} (h : TableOk sc s) {data : Buf} {size : ℕ} (hs : SeeksSpace size)
    (e : editFile s i data size = (true, s')) : TableOk sc s' ∧ DriveOk sc s'.drive := by
  obtain ⟨-, start, hf, rfl⟩ := editFile_true e
  obtain ⟨hx, -, -⟩ := h.place hs (s.table i).type (fun j hj hji =>
    ⟨hj.clear_of_ne hji, FileTable.clear_of_ne hji⟩) (h.extents.clear i) hf
  have hd : TableOk sc ⟨writeSectors s.drive start.toNat data size, s.table⟩ :=
    ⟨by simpa using h.sectors, h.le_sectors, h.sectors_le, h.extents⟩
  exact ⟨⟨by simpa using h.sectors, h.le_sectors, h.sectors_le, hx⟩, hd.save hx⟩

theorem TableOk.addFileToDir {s s' : Fs} (h : TableOk sc s) {junk : Junk} {dir : ℕ}
    {name : List UInt8} (e : addFileToDir junk s dir i name = (true, s')) :
    TableOk sc s' ∧ DriveOk sc s'.drive := by
  have := (s.table dir).size.toNat_lt
  unfold EitanOS.addFileToDir at e
  exact h.editFile (.of_le (by omega)) e

theorem TableOk.removeFileFromDir {s s' : Fs} (h : TableOk sc s) {junk : Junk} {dir : ℕ}
    (e : removeFileFromDir junk s dir i = some (true, s')) : TableOk sc s' ∧ DriveOk sc s'.drive := by
  unfold EitanOS.removeFileFromDir at e
  dsimp only at e
  split_ifs at e
  have := (s.table dir).size.toNat_lt
  exact h.editFile (.of_le (by omega)) (Option.some.inj e)

theorem DriveOk.writeSectors (h : DriveOk sc d) {lba size : ℕ} {src : Buf} (h₁ : 641 ≤ lba)
    (h₂ : lba ≤ 65535) : DriveOk sc (writeSectors d lba src size) := by
  refine ⟨by simpa using h.sectors, h.le_sectors, h.sectors_le, ?_⟩
  exact h.extents.congr fun i hi => diskTable_writeSectors (by omega) (by omega) hi

/-! ## The operations -/

theorem DriveOk.writeFile (h : DriveOk sc d) {junk : Junk} {path : List UInt8} {data : Buf}
    {type : FileType} {size : ℕ} (hs : SeeksSpace size) :
    DriveOk sc (writeFile junk d path data type size).2 := by
  rcases e : EitanOS.writeFile junk d path data type size with ⟨b, d'⟩
  cases b with
  | false =>
    have hd := writeFile_false (congrArg Prod.fst e)
    rw [e] at hd
    rw [hd]
    exact h
  | true =>
    have ht := h.tableOk (junk.sub 1)
    obtain ⟨-, ⟨-, i, s', -, -, he, rfl⟩ | ⟨-, start, i, dir, s', hspace, -, -, ha, rfl⟩⟩ :=
      writeFile_true e
    · exact (ht.editFile hs he).2
    · obtain ⟨hx, h₁, h₂⟩ := ht.place (i := i) hs type.code (fun j hj _ => ⟨hj, rfl⟩)
        ht.extents hspace
      have hi : TableOk sc ⟨d, Function.update (loadFileTable (junk.sub 1) d) i
          ⟨magic, type.code, start, UInt32.ofNat size⟩⟩ := ⟨h.sectors, h.le_sectors, h.sectors_le, hx⟩
      exact (hi.addFileToDir ha).2.writeSectors h₁ h₂

theorem unlinkEntry_ok {s : Fs} (h : TableOk sc s) (hd : DriveOk sc s.drive) {junk : Junk}
    {path : List UInt8} {b : Bool} (e : unlinkEntry junk s path i = some (b, d')) : DriveOk sc d' := by
  cases b with
  | false =>
    rw [unlinkEntry_false e]
    exact hd
  | true =>
    unfold unlinkEntry at e
    split at e
    · exact absurd (congrArg Prod.fst (Option.some.inj e)) (by simp)
    · obtain ⟨⟨success, s'⟩, hr, e⟩ := Option.map_eq_some_iff.mp e
      cases success with
      | false => exact absurd (congrArg Prod.fst e) (by simp)
      | true =>
        have h' := (h.removeFileFromDir hr).1
        obtain rfl := congrArg Prod.snd e
        exact h'.save (h'.extents.clear i)

theorem DriveOk.deleteFile (h : DriveOk sc d) {junk : Junk} {path : List UInt8} {b : Bool}
    (e : deleteFile junk d path = some (b, d')) : DriveOk sc d' := by
  unfold EitanOS.deleteFile at e
  split_ifs at e
  · dsimp only at e
    split at e
    · obtain rfl := congrArg Prod.snd (Option.some.inj e)
      exact h
    · exact unlinkEntry_ok (h.tableOk _) h e
  · obtain rfl := congrArg Prod.snd (Option.some.inj e)
    exact h

theorem foldlM_invariant {α β : Type*} {f : α → β → Option α} {P : α → Prop}
    (hf : ∀ a b a', P a → f a b = some a' → P a') {l : List β} {a a' : α} (ha : P a)
    (e : l.foldlM f a = some a') : P a' := by
  induction l generalizing a with
  | nil =>
    obtain rfl := Option.some.inj e
    exact ha
  | cons b l ih =>
    obtain ⟨a₁, e₁, e⟩ := Option.bind_eq_some_iff.mp e
    exact ih (hf a b a₁ ha e₁) e

theorem deleteDirectoryEntriesRecursive_extents {fuel : ℕ} {junk : Junk} {dir : ℕ}
    (h : ExtentsOk sc t) (e : deleteDirectoryEntriesRecursive d fuel junk t dir = some t') :
    ExtentsOk sc t' := by
  induction fuel generalizing junk t t' dir with
  | zero => exact absurd e (by simp [deleteDirectoryEntriesRecursive])
  | succ fuel ih =>
    rw [deleteDirectoryEntriesRecursive] at e
    dsimp only at e
    split_ifs at e
    · obtain rfl := Option.some.inj e
      exact h
    · refine foldlM_invariant (P := ExtentsOk sc) (fun t j t₁ ht e₁ => ?_) h e
      split_ifs at e₁
      · obtain ⟨t₂, e₂, rfl⟩ := Option.map_eq_some_iff.mp e₁
        exact (ih ht e₂).clear _
      · obtain rfl := Option.some.inj e₁
        exact ht.clear _
      · obtain rfl := Option.some.inj e₁
        exact ht

theorem DriveOk.deleteDirectory (h : DriveOk sc d) {fuel : ℕ} {junk : Junk} {path : List UInt8}
    {b : Bool} (e : deleteDirectory fuel junk d path = some (b, d')) : DriveOk sc d' := by
  unfold EitanOS.deleteDirectory at e
  split_ifs at e
  · dsimp only at e
    split at e
    · obtain rfl := congrArg Prod.snd (Option.some.inj e)
      exact h
    · split_ifs at e
      · obtain ⟨t, ht, e⟩ := Option.bind_eq_some_iff.mp e
        have hx := deleteDirectoryEntriesRecursive_extents (h.load _) ht
        exact unlinkEntry_ok ⟨h.sectors, h.le_sectors, h.sectors_le, hx⟩ h e
      · obtain rfl := congrArg Prod.snd (Option.some.inj e)
        exact h
  · obtain rfl := congrArg Prod.snd (Option.some.inj e)
    exact h

/-! ## Runs -/

/-- One operation, with any contents of uninitialised memory. -/
inductive FsStep (d : Drive) : Drive → Prop
  | write {junk : Junk} {path : List UInt8} {data : Buf} {type : FileType} {size : ℕ} {b : Bool}
      {d' : Drive} (hs : size < 2 ^ 32) (e : writeFile junk d path data type size = (b, d')) :
      FsStep d d'
  | createDirectory {junk : Junk} {path : List UInt8} {b : Bool} {d' : Drive}
      (e : createDirectory junk d path = (b, d')) : FsStep d d'
  | deleteFile {junk : Junk} {path : List UInt8} {b : Bool} {d' : Drive} (hp : path ≠ [slash])
      (e : deleteFile junk d path = some (b, d')) : FsStep d d'
  | deleteDirectory {fuel : ℕ} {junk : Junk} {path : List UInt8} {b : Bool} {d' : Drive}
      (e : deleteDirectory fuel junk d path = some (b, d')) : FsStep d d'

/-- The drives after runs of operations. -/
def FsReach : Drive → Drive → Prop := Relation.ReflTransGen FsStep

/-- **Every operation keeps the invariant.** -/
theorem DriveOk.step (h : DriveOk sc d) (hs : FsStep d d') : DriveOk sc d' := by
  cases hs with
  | write hs e =>
    obtain rfl := congrArg Prod.snd e
    exact h.writeFile (.of_le hs.le)
  | createDirectory e =>
    obtain rfl := congrArg Prod.snd e
    exact h.writeFile (.inl rfl)
  | deleteFile _ e => exact h.deleteFile e
  | deleteDirectory e => exact h.deleteDirectory e

theorem DriveOk.reach (h : DriveOk sc d) (hr : FsReach d d') : DriveOk sc d' := by
  induction hr with
  | refl => exact h
  | tail _ hs ih => exact ih.step hs

theorem rootTable_not_occupied (i : ℕ) : ¬ Occupied rootTable i := by
  intro hi
  have := hi.2.2
  unfold rootTable at this
  split_ifs at this
  · exact this rfl
  · exact this rfl

theorem driveOk_root (h₁ : 642 ≤ d.sectorCount) (h₂ : d.sectorCount ≤ 65535) :
    DriveOk d.sectorCount (saveFileTable d rootTable) := by
  have h : ExtentsOk d.sectorCount rootTable :=
    ⟨fun i hi => absurd hi (rootTable_not_occupied i), fun i hi => absurd hi (rootTable_not_occupied i),
      fun i _ hi => absurd hi (rootTable_not_occupied i)⟩
  exact TableOk.save (s := ⟨d, rootTable⟩) ⟨rfl, h₁, h₂, h⟩ h

/-- **File extents never overlap**: after every run of operations from the root that `ensure_root`
makes, the nonempty extents in the table on disk are pairwise disjoint, start behind the table and
end by `sector_count - 1`. -/
theorem run_extents {junk : Junk} {d₀ d : Drive} (h₁ : 642 ≤ d₀.sectorCount)
    (h₂ : d₀.sectorCount ≤ 65535) (h₀ : findRoot (loadFileTable junk d₀) = none)
    (hr : FsReach (ensureRoot junk d₀) d) :
    (∀ i, Occupied (diskTable d) i →
        20 < (diskTable d i).startSector.toNat ∧ (diskTable d i).stop ≤ d₀.sectorCount - 1) ∧
      ∀ i j, Occupied (diskTable d) i → Occupied (diskTable d) j → i ≠ j →
        (diskTable d i).stop ≤ (diskTable d j).startSector.toNat ∨
          (diskTable d j).stop ≤ (diskTable d i).startSector.toNat := by
  have hinit : DriveOk d₀.sectorCount (ensureRoot junk d₀) := by
    unfold ensureRoot
    rw [h₀]
    exact driveOk_root h₁ h₂
  have h := hinit.reach hr
  refine ⟨fun i hi => ⟨?_, h.extents.stop i hi⟩, h.extents.disjoint⟩
  have := h.extents.start i hi
  omega

/-- A blank drive of 1000 sectors. -/
def blankDrive : Drive := ⟨fun _ => 0, 1000⟩

theorem findRoot_blankDrive : findRoot (loadFileTable (fun _ _ => 0) blankDrive) = none := by
  have hz : readSectors blankDrive 1 (fun _ => 0) 10240 = fun _ => 0 := by
    funext k
    simp [readSectors, blankDrive]
  refine List.find?_eq_none.mpr fun i _ => ?_
  have : (loadFileTable (fun _ _ => 0) blankDrive i).magicNumber = 0 := by
    simp only [loadFileTable, decodeTable, hz]
    rfl
  simp [FileEntry.Live, this, magic]

theorem run_extents_blank_drive : ∃ d, FsReach (ensureRoot (fun _ _ => 0) blankDrive) d ∧
    ∀ i j, Occupied (diskTable d) i → Occupied (diskTable d) j → i ≠ j →
      (diskTable d i).stop ≤ (diskTable d j).startSector.toNat ∨
        (diskTable d j).stop ≤ (diskTable d i).startSector.toNat := by
  obtain ⟨⟨b₁, d₁⟩, e₁⟩ : ∃ r, createDirectory (fun _ _ => 0)
    (ensureRoot (fun _ _ => 0) blankDrive) [47, 97] = r := ⟨_, rfl⟩
  obtain ⟨⟨b₂, d₂⟩, e₂⟩ : ∃ r, writeFile (fun _ _ => 0) d₁ [47, 97, 47, 98] (fun _ => 7) .file 1000 = r :=
    ⟨_, rfl⟩
  have hr : FsReach (ensureRoot (fun _ _ => 0) blankDrive) d₂ :=
    .tail (.single (.createDirectory e₁)) (.write (by decide) e₂)
  exact ⟨d₂, hr, (run_extents (by decide) (by decide) findRoot_blankDrive hr).2⟩

end EitanOS
