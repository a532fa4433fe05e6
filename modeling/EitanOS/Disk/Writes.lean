import EitanOS.Disk.Tree

/-!
# What writing changes

* `content_write_other`, `content_write_self`: a write to the extent of one entry, seen from another
  one and from itself.
* **`editFile_spec`**: an edit that succeeds moves one entry and changes the bytes of no other.
* `DiskSound d r`: the drive holds a tree below `r`, and every live entry is in it.
* `Added`: what creating an entry of any type leaves behind (**`TreeOk.added`**). For a file or an empty
  directory, the tree then has one more node (**`Added.path`**).
* `Written`: what a file written to a path leaves behind, for the file and for everything else.
  **`DiskSound.overwrite`** and **`Created.written`** are its two cases.
-/

namespace EitanOS

open Bytes Names

variable {d d' : Drive} {t t' : FileTable} {sc r i j size k : ℕ} {src data : Buf} {s s' : Fs}

/-! ## Bytes of an entry -/

theorem content_save (t : FileTable) {e : FileEntry} (he : 641 ≤ e.startSector.toNat) :
    content (saveFileTable d t) e k = content d e k :=
  saveFileTable_outside t (by omega)

theorem ExtentsOk.bounds (h : ExtentsOk sc t) (hi : i < 640) (hl : (t i).Live)
    (hk : k < (t i).size.toNat) : Occupied t i ∧ 641 ≤ (t i).startSector.toNat ∧
      (t i).startSector.toNat + ((t i).size.toNat + 511) / 512 ≤ sc - 1 := by
  have ho : Occupied t i := by
    refine ⟨hi, hl, fun e => ?_⟩
    rw [e] at hk
    exact absurd hk (Nat.not_lt_zero _)
  exact ⟨ho, h.start i ho, h.stop i ho⟩

theorem content_write_other (h : ExtentsOk sc t) (hsc : sc ≤ 65535) (hi : i < 640)
    (hli : (t i).Live) (hs : sectorsOf size ≤ (t i).sectors) (hj : j < 640) (hlj : (t j).Live)
    (hij : j ≠ i) (hk : k < (t j).size.toNat) :
    content (writeSectors d (t i).startSector.toNat src size) (t j) k = content d (t j) k := by
  obtain ⟨hoj, -, hbj⟩ := h.bounds hj hlj hk
  by_cases h₀ : (t i).size = 0
  · have hsec : (t i).sectors = 0 := by
      rw [FileEntry.sectors, h₀]
      rfl
    rw [writeSectors, if_pos (.inl (by omega))]
  · have hoi : Occupied t i := ⟨hi, hli, h₀⟩
    have hstop := h.stop i hoi
    have hd := h.disjoint j i hoj hoi hij
    unfold FileEntry.stop at hstop hd
    unfold FileEntry.sectors at hs hstop hd
    apply writeSectors_outside (by omega)
    rcases hd with hd | hd
    · left
      omega
    · right
      omega

theorem content_write_self (h : ExtentsOk d.sectorCount t) (h₂ : d.sectorCount ≤ 65535)
    (hi : i < 640) (hl : (t i).Live) (hs : (t i).size.toNat ≤ 255 * 512)
    (hk : k < (t i).size.toNat) :
    content (writeSectors d (t i).startSector.toNat src (t i).size.toNat) (t i) k = src k := by
  obtain ⟨-, h₁, hb⟩ := h.bounds hi hl hk
  exact writeSectors_inside hs h₂ (by omega) hk

/-! ## `edit_file` -/

/-- Entry `i` has been moved and holds `size` bytes of `data`; nothing else has changed. -/
structure Edited (s s' : Fs) (i : ℕ) (data : Buf) (size : ℕ) : Prop where
  live : (s.table i).Live
  table : ∃ start, s'.table =
    Function.update s.table i ⟨magic, (s.table i).type, start, UInt32.ofNat size⟩
  sectors : s'.drive.sectorCount = s.drive.sectorCount
  extents : ExtentsOk s.drive.sectorCount s'.table
  saved : ∀ j < 640, diskTable s'.drive j = s'.table j
  others : ∀ j < 640, j ≠ i → (s.table j).Live → ∀ k < (s.table j).size.toNat,
    content s'.drive (s.table j) k = content s.drive (s.table j) k
  self : ∀ k < size, content s'.drive (s'.table i) k = data k

namespace Edited

theorem table_of_ne (h : Edited s s' i data size) (hj : j ≠ i) : s'.table j = s.table j := by
  obtain ⟨start, e⟩ := h.table
  rw [e, Function.update_of_ne hj]

theorem live_iff (h : Edited s s' i data size) (j : ℕ) :
    (s'.table j).Live ↔ (s.table j).Live := by
  by_cases hj : j = i
  · subst hj
    obtain ⟨start, e⟩ := h.table
    rw [e, Function.update_self]
    exact iff_of_true rfl h.live
  · rw [h.table_of_ne hj]

theorem type_eq (h : Edited s s' i data size) (j : ℕ) : (s'.table j).type = (s.table j).type := by
  by_cases hj : j = i
  · subst hj
    obtain ⟨start, e⟩ := h.table
    rw [e, Function.update_self]
  · rw [h.table_of_ne hj]

theorem size_eq (h : Edited s s' i data size) (hs : size < 2 ^ 32) :
    (s'.table i).size.toNat = size := by
  obtain ⟨start, e⟩ := h.table
  rw [e, Function.update_self]
  exact UInt32.toNat_ofNat_of_lt' (by simpa [UInt32.size] using hs)

end Edited

theorem editFile_edited (h : TableOk sc s) (hi : i < 640) (hs : SeeksSpace size)
    (e : editFile s i data size = (true, s')) :
    Edited s s' i (content s'.drive (s'.table i)) size ∧
      findSpaceForFile s.drive (s.table.clear i) size = some (s'.table i).startSector ∧
      s'.drive = saveFileTable
        (writeSectors s.drive (s'.table i).startSector.toNat data size) s'.table := by
  have hx := (h.editFile hs e).1.extents
  obtain ⟨rfl, h₁, h₂, hx₀⟩ := h
  obtain ⟨hl, start, hf, rfl⟩ := editFile_true e
  dsimp only at hx
  have hsec := (findSpaceForFile_mod (hx₀.clear i) h₁ h₂ hs hf).2
  rw [← sectors_ofNat size (s.table i).type start] at hsec
  generalize ht : Function.update s.table i
    ⟨magic, (s.table i).type, start, UInt32.ofNat size⟩ = t at hx ⊢
  have hti : t i = ⟨magic, (s.table i).type, start, UInt32.ofNat size⟩ := by
    rw [← ht, Function.update_self]
  have htj : ∀ j, j ≠ i → t j = s.table j := fun j hj => by
    rw [← ht, Function.update_of_ne hj]
  have hst : (t i).startSector = start := by rw [hti]
  have hli : (t i).Live := by rw [hti]
  refine ⟨⟨hl, ⟨start, ht.symm⟩, by simp, hx, ?_, ?_, fun _ _ => rfl⟩, by rw [hst, hf], by rw [hst]⟩
  · intro j hj
    exact diskTable_save t (by simp; omega) (by simp; omega) hj
  · intro j hj hji hlj k hk
    rw [← htj j hji] at hlj hk ⊢
    rw [content_save t (hx.bounds hj hlj hk).2.1, ← hst]
    exact content_write_other hx h₂ hi hli (hti ▸ hsec) hj hlj hji hk

/-- **What `edit_file` does.** -/
theorem editFile_spec (h : TableOk sc s) (hi : i < 640) (hs : size ≤ 255 * 512)
    (e : editFile s i data size = (true, s')) : Edited s s' i data size := by
  obtain ⟨he, -, hd⟩ := editFile_edited h hi (.of_le (by omega)) e
  have hsz := he.size_eq (by omega)
  have hli := (he.live_iff i).2 he.live
  refine { he with self := fun k hk => ?_ }
  rw [← hsz] at hk
  rw [hd, content_save _ (he.extents.bounds hi hli hk).2.1, ← hsz]
  exact content_write_self he.extents (h.sectors ▸ h.sectors_le) hi hli (by omega) hk

/-! ## A drive and its tree -/

/-- The drive holds a tree below entry `r`, and every live entry has a path in it. -/
structure DiskSound (d : Drive) (r : ℕ) : Prop where
  treeOk : TreeOk d (diskTable d) r
  path : ∀ i < 640, (diskTable d i).Live → ∃ cs, (dirTree d (diskTable d) r).Path cs i

/-- After writing `size` bytes of `data` under the names `cs`: entry `i` is there and holds them,
other names lead where they did, and other files are as they were. -/
structure Written (d d' : Drive) (r i : ℕ) (cs : List (List UInt8)) (data : Buf) (size : ℕ) :
    Prop where
  sound : DiskSound d' r
  lt : i < 640
  live : (diskTable d' i).Live
  file : (diskTable d' i).IsFile
  size_eq : (diskTable d' i).size.toNat = size
  bytes : ∀ k < size, content d' (diskTable d' i) k = data k
  here : (dirTree d' (diskTable d') r).walk r cs = some i
  elsewhere : ∀ cs', cs' ≠ cs →
    (dirTree d' (diskTable d') r).walk r cs' = (dirTree d (diskTable d) r).walk r cs'
  others : ∀ j < 640, j ≠ i → (diskTable d j).Live → (diskTable d j).IsFile →
    diskTable d' j = diskTable d j ∧
      ∀ k < (diskTable d j).size.toNat, content d' (diskTable d j) k = content d (diskTable d j) k

/-- Entry `j` is on drive `d'` what it is on `d`. -/
def SameFile (d d' : Drive) (j : ℕ) : Prop :=
  (diskTable d' j).Live ∧ (diskTable d' j).type = (diskTable d j).type ∧
    (diskTable d' j).size = (diskTable d j).size ∧ ∀ k < (diskTable d j).size.toNat,
      content d' (diskTable d' j) k = content d (diskTable d j) k

theorem SameFile.of_eq (hl : (diskTable d j).Live) (he : diskTable d' j = diskTable d j)
    (hc : ∀ k < (diskTable d j).size.toNat, content d' (diskTable d j) k = content d (diskTable d j) k) :
    SameFile d d' j := by
  rw [SameFile, he]
  exact ⟨hl, rfl, rfl, hc⟩

theorem IsFolder.not_isFile {q : ℕ} (h : IsFolder t q) : ¬ (t q).IsFile := by
  intro hf
  obtain ⟨-, -, e | e⟩ := h
  · exact absurd (hf.symm.trans e) (by decide)
  · exact absurd (hf.symm.trans e) (by decide)

theorem TreeOk.load (h : TreeOk d t' r) (ht : ∀ j < 640, t j = t' j) :
    TreeOk d t r ∧ dirTree d t r = dirTree d t' r := by
  have hs : SameFolders d t' d t := by
    rintro q (hq | hq)
    · exact ⟨ht q hq.1, fun k _ => rfl⟩
    · exact ⟨ht q hq.1, fun k _ => rfl⟩
  refine ⟨h.congr hs rfl (fun j hj hl => ?_) (h.extents.congr ht), hs.dirTree⟩
  rw [ht j hj]
  exact hl

theorem TreeOk.tableOk (h : TreeOk d t r) : TableOk d.sectorCount ⟨d, t⟩ :=
  ⟨rfl, h.le_sectors, h.sectors_le, h.extents⟩

/-- **Overwriting a file.** -/
theorem DiskSound.overwrite (h : DiskSound d r) (ht : ∀ j < 640, t j = diskTable d j)
    {cs : List (List UInt8)} (hi : i < 640) (hw : (dirTree d t r).walk r cs = some i)
    (hf : (t i).IsFile) (hs : size ≤ 255 * 512) (e : editFile ⟨d, t⟩ i data size = (true, s')) :
    Written d s'.drive r i cs data size := by
  obtain ⟨hok, htree⟩ := h.treeOk.load ht
  have he := editFile_spec hok.tableOk hi hs e
  obtain ⟨start, hst⟩ := he.table
  have hti : diskTable s'.drive i = ⟨magic, (t i).type, start, UInt32.ofNat size⟩ := by
    rw [he.saved i hi, hst, Function.update_self]
  have htj : ∀ j < 640, j ≠ i → diskTable s'.drive j = diskTable d j := fun j hj hji => by
    rw [he.saved j hj, hst, Function.update_of_ne hji, ← ht j hj]
  have hsame : ∀ j < 640, j ≠ i → (diskTable d j).Live → ∀ k < (diskTable d j).size.toNat,
      content s'.drive (diskTable d j) k = content d (diskTable d j) k := fun j hj hji hl k hk => by
    rw [← ht j hj] at hl hk ⊢
    exact he.others j hj hji hl k hk
  have hfold : SameFolders d (diskTable d) s'.drive (diskTable s'.drive) := by
    intro q hq
    -- a file is no folder, before and after
    have hqi : q < 640 ∧ q ≠ i := by
      rcases hq with hq | hq
      · exact ⟨hq.1, fun e => hq.not_isFile (by rw [e, ← ht i hi]; exact hf)⟩
      · exact ⟨hq.1, fun e => hq.not_isFile (by rw [e, hti]; exact hf)⟩
    have hlive : (diskTable d q).Live := by
      rcases hq with hq | hq
      · exact hq.2.1
      · rw [← htj q hqi.1 hqi.2]
        exact hq.2.1
    exact ⟨htj q hqi.1 hqi.2, hsame q hqi.1 hqi.2 hlive⟩
  have hlive : ∀ j < 640, (diskTable s'.drive j).Live ↔ (diskTable d j).Live := by
    intro j hj
    by_cases hji : j = i
    · subst hji
      rw [hti, ← ht j hj]
      exact ⟨fun _ => he.live, fun _ => rfl⟩
    · rw [htj j hj hji]
  have hx : ExtentsOk d.sectorCount (diskTable s'.drive) := he.extents.congr he.saved
  refine
    { sound := ⟨h.treeOk.congr hfold he.sectors (fun j hj => (hlive j hj).2) hx, ?_⟩
      lt := hi
      live := by rw [hti]
      file := by rw [hti]; exact hf
      size_eq := by
        rw [hti]
        exact UInt32.toNat_ofNat_of_lt' (by simp [UInt32.size]; omega)
      bytes := ?_
      here := by rw [hfold.dirTree, ← htree]; exact hw
      elsewhere := fun cs' _ => by rw [hfold.dirTree]
      others := fun j hj hji hl _ => ⟨htj j hj hji, hsame j hj hji hl⟩ }
  · intro j hj hl
    rw [hfold.dirTree]
    exact h.path j hj ((hlive j hj).1 hl)
  · rw [he.saved i hi]
    exact he.self

/-! ## An entry taken for a file -/

/-- Table `t` with entry `i` taken for a file. -/
def FileTable.asFile (t : FileTable) (i : ℕ) : FileTable :=
  Function.update t i { t i with type := FileType.file.code }

theorem FileTable.asFile_of_ne (h : j ≠ i) : t.asFile i j = t j := Function.update_of_ne h _ _

theorem FileTable.asFile_self : t.asFile i i = { t i with type := FileType.file.code } :=
  Function.update_self i _ t

theorem ExtentsOk.asFile (h : ExtentsOk sc t) : ExtentsOk sc (t.asFile i) := by
  refine h.congr_extent fun j _ => ?_
  by_cases hj : j = i
  · subst hj
    rw [FileTable.asFile_self]
    exact ⟨rfl, rfl, rfl⟩
  · rw [FileTable.asFile_of_ne hj]
    exact ⟨rfl, rfl, rfl⟩

theorem not_isFolder_asFile : ¬ IsFolder (t.asFile i) i := fun hf =>
  hf.not_isFile (by rw [FileTable.asFile_self])

theorem SameBut.asFile (ht : ∀ j < 640, t' j = t j) (hi : i < 640) (hr : ¬ (t i).IsRoot) :
    SameBut (t.asFile i) t' i := by
  refine ⟨fun j hj hji => ?_, not_isFolder_asFile, fun _ _ h => ?_, fun hl => ?_⟩
  · rw [ht j hj, FileTable.asFile_of_ne hji]
  · rw [ht i hi] at h
    exact absurd h hr
  · rw [FileTable.asFile_self] at hl
    rw [ht i hi]
    exact hl

/-! ## One more directory entry -/

theorem putDirEntry_before {b : Buf} {name : List UInt8} (hk : k < 64 * j) :
    putDirEntry b j i name k = b k := by
  unfold putDirEntry
  rw [put_outside (by omega), put_outside (by omega), put_outside (by omega)]

theorem nameAt_putDirEntry {b : Buf} {name : List UInt8} (h₀ : (0 : UInt8) ∉ name) :
    nameAt (putDirEntry b j i name) j = name.take 59 := by
  have hb : ∀ k < 59, k ≤ name.length → putDirEntry b j i name (64 * j + k) = toBuf name k := by
    intro k hk hle
    unfold putDirEntry
    rw [put_outside (by omega), put_inside (by omega) (by omega), Nat.add_sub_cancel_left]
  have hlen : (name.take 59).length = min 59 name.length := List.length_take
  refine cstr_eq (by omega) (fun h => h₀ (List.mem_of_mem_take h)) (fun k hk => ?_) ?_
  · rw [dirName, hb k (by omega) (by omega), List.getElem_take, toBuf_apply]
  · rw [dirName, hlen]
    by_cases h59 : name.length < 59
    · rw [min_eq_right h59.le, hb _ h59 le_rfl, toBuf, List.getD_eq_default _ _ le_rfl]
    · rw [min_eq_left (by omega)]
      unfold putDirEntry
      rw [put_inside (by omega) (by omega)]

theorem dirIndex_putDirEntry {b : Buf} {name : List UInt8} (hi : i < 2 ^ 32) :
    dirIndex (putDirEntry b j i name) j = i := by
  unfold dirIndex
  rw [le32_byte32 (v := UInt32.ofNat i) fun k hk => ?_]
  · exact UInt32.toNat_ofNat_of_lt' hi
  · unfold putDirEntry
    rw [put_outside (by omega), put_outside (by omega), put_inside (by omega) (by omega),
      Nat.add_sub_cancel_left]

section Folder

variable {q : ℕ} (h : TreeOk d t r) (hq : IsFolder t q) (ht : t' q = t q)
include h hq ht

theorem TreeOk.loadEntries (junk : Junk) (hk : k < (t q).size.toNat) :
    loadEntries junk ⟨d, t'⟩ q k = content d (t q) k := by
  unfold EitanOS.loadEntries
  simp only [ht]
  rw [if_pos (UInt32.lt_iff_toNat_lt.2 (by simpa using Nat.zero_lt_of_lt hk))]
  exact h.readSectors_folder hq hk

/-- **A directory with one more entry.** -/
theorem TreeOk.dirEntries_added (junk : Junk) {name : List UInt8} (h₀ : (0 : UInt8) ∉ name)
    (hi : i < 640) {e : FileEntry} (he : e.size.toNat = ((t q).size.toNat / 64 + 1) * 64)
    (hc : ∀ k < ((t q).size.toNat / 64 + 1) * 64, content d' e k =
      putDirEntry (EitanOS.loadEntries junk ⟨d, t'⟩ q) ((t q).size.toNat / 64) i name k) :
    dirEntries d' e = dirEntries d (t q) ++ [(name.take 59, i)] := by
  unfold dirEntries
  rw [he, Nat.mul_div_cancel _ (by omega), List.range_succ, List.map_append, List.map_singleton]
  congr 1
  · refine List.map_congr_left fun j hj => ?_
    rw [List.mem_range] at hj
    have hb : ∀ k < (t q).size.toNat / 64 * 64, content d' e k = content d (t q) k := by
      intro k hk
      rw [hc k (by omega), putDirEntry_before (by omega), h.loadEntries hq ht junk (by omega)]
    obtain ⟨h₁, h₂⟩ := entry_congr hb (by omega : j < _)
    rw [h₁, h₂]
  · obtain ⟨h₁, h₂⟩ := entry_congr hc (by omega : (t q).size.toNat / 64 < _)
    rw [h₁, h₂, nameAt_putDirEntry h₀, dirIndex_putDirEntry (by omega)]

/-- **`add_file_to_dir`** appends an entry, if it succeeds. -/
theorem TreeOk.addFileToDir (hx : ExtentsOk d.sectorCount t') {junk : Junk} {name : List UInt8}
    (h₀ : (0 : UInt8) ∉ name) (hi : i < 640)
    (e : addFileToDir junk ⟨d, t'⟩ q i name = (true, s')) :
    ∃ data size, Edited ⟨d, t'⟩ s' q data size ∧
      dirEntries s'.drive (s'.table q) = dirEntries d (t q) ++ [(name.take 59, i)] := by
  have hcount := h.count_le hq
  unfold EitanOS.addFileToDir at e
  dsimp only at e
  rw [ht] at e
  have he := editFile_spec ⟨rfl, h.le_sectors, h.sectors_le, hx⟩ hq.1 (by omega) e
  exact ⟨_, _, he, h.dirEntries_added hq ht junk h₀ hi (he.size_eq (by omega)) he.self⟩

end Folder

/-! ## A new entry of the table -/

/-- A file or an empty directory. -/
def FileEntry.Leaf (e : FileEntry) : Prop := e.IsFile ∨ e.IsDir ∧ e.size = 0

theorem FileEntry.Leaf.dirEntries_eq {e : FileEntry} (h : e.Leaf) (hf : ¬ e.IsFile) :
    dirEntries d e = [] := by
  rw [dirEntries, (h.resolve_left hf).2]
  rfl

theorem FileEntry.Leaf.not_isRoot {e : FileEntry} (h : e.Leaf) : ¬ e.IsRoot := by
  intro hr
  rcases h with h | ⟨h, -⟩
  · exact absurd (h.symm.trans hr) (by decide)
  · exact absurd (h.symm.trans hr) (by decide)

/-- Between drive `d` and drive `d'` with table `t'`, entry `i` has become `e`, and entry `q` has been
rewritten. If `q` is a folder, it lists `i` behind the rest, with its name cut to 59 characters. -/
structure Added (d d' : Drive) (t' : FileTable) (q i : ℕ) (e : FileEntry) (name : List UInt8) :
    Prop where
  sectors : d'.sectorCount = d.sectorCount
  extents : ExtentsOk d.sectorCount t'
  parent : q < 640 ∧ (diskTable d q).Live
  lt : i < 640
  free : ¬ (diskTable d i).Live
  entry : t' i = e
  live : e.Live
  kept : (t' q).Live ∧ (t' q).type = (diskTable d q).type
  entries : IsFolder (diskTable d) q →
    dirEntries d' (t' q) = dirEntries d (diskTable d q) ++ [(name.take 59, i)]
  rest : ∀ j < 640, j ≠ i → j ≠ q → t' j = diskTable d j
  contents : ∀ j < 640, j ≠ i → j ≠ q → (diskTable d j).Live →
    ∀ k < (diskTable d j).size.toNat, content d' (diskTable d j) k = content d (diskTable d j) k

/-- **What `filesystem_write_file` does to create a file**, once it has a place, an entry and its
parent. -/
theorem TreeOk.added (h : TreeOk d (diskTable d) r) (data : Buf) (ht : ∀ j < 640, t j = diskTable d j)
    {type start : UInt32} (hspace : findSpaceForFile d t size = some start) (hs : SeeksSpace size)
    (hi : i < 640) (hl : ¬ (t i).Live) {q : ℕ} (hq : q < 640 ∧ (diskTable d q).Live) {junk : Junk}
    {name : List UInt8} (h₀ : (0 : UInt8) ∉ name)
    (e : EitanOS.addFileToDir junk ⟨d, Function.update t i ⟨magic, type, start, UInt32.ofNat size⟩⟩
      q i name = (true, s')) :
    Added d (writeSectors s'.drive start.toNat data size)
        (diskTable (writeSectors s'.drive start.toNat data size)) q i
        ⟨magic, type, start, UInt32.ofNat size⟩ name ∧
      (size ≤ 255 * 512 → ∀ k < size, content (writeSectors s'.drive start.toNat data size)
        ⟨magic, type, start, UInt32.ofNat size⟩ k = data k) := by
  obtain ⟨hok, -⟩ := h.load ht
  have h₂ := h.sectors_le
  obtain ⟨hx, hst, hst'⟩ := hok.tableOk.place (i := i) hs type (fun j hj _ => ⟨hj, rfl⟩) hok.extents hspace
  have hsec := (findSpaceForFile_mod hok.extents h.le_sectors h₂ hs hspace).2
  rw [← sectors_ofNat size type start] at hsec
  have hqi : q ≠ i := by
    rintro rfl
    exact hl (by rw [ht q hi]; exact hq.2)
  dsimp only at hx
  generalize hen : FileEntry.mk magic type start (UInt32.ofNat size) = en at e hx hsec ⊢
  generalize ht₁ : Function.update t i en = t₁ at e hx
  have hi₁ : t₁ i = en := by rw [← ht₁, Function.update_self]
  have hj₁ : ∀ j < 640, j ≠ i → t₁ j = diskTable d j := fun j hj hji => by
    rw [← ht₁, Function.update_of_ne hji, ht j hj]
  have hq₁ := hj₁ q hq.1 hqi
  have hsize : ((t₁ q).size.toNat / 64 + 1) * 64 ≤ 2 ^ 32 := by
    have := (t₁ q).size.toNat_lt
    omega
  have e' := e
  unfold EitanOS.addFileToDir at e'
  have he := (editFile_edited (s := ⟨d, t₁⟩) ⟨rfl, h.le_sectors, h₂, hx⟩ hq.1 (.of_le hsize) e').1
  have hx' := he.extents
  -- the table on the drive in the end
  have hd : ∀ j < 640, diskTable (writeSectors s'.drive start.toNat data size) j = s'.table j :=
    fun j hj => by rw [diskTable_writeSectors (by omega) (by omega) hj, he.saved j hj]
  have hsi : s'.table i = en := (he.table_of_ne hqi.symm).trans hi₁
  have hsame : ∀ j, j ≠ q → s'.table j = t₁ j := fun j hjq => he.table_of_ne hjq
  have hsj : ∀ j < 640, j ≠ i → j ≠ q → s'.table j = diskTable d j := fun j hj hji hjq =>
    (hsame j hjq).trans (hj₁ j hj hji)
  have hlq : (s'.table q).Live := (he.live_iff q).2 (hq₁.symm ▸ hq.2 : (t₁ q).Live)
  have hli : (s'.table i).Live := by rw [hsi, ← hen]
  have hss : (s'.table i).startSector = start := by rw [hsi, ← hen]
  -- the data goes to the extent of `i` only
  have hwrite : ∀ j < 640, j ≠ i → (s'.table j).Live → ∀ k < (s'.table j).size.toNat,
      content (writeSectors s'.drive start.toNat data size) (s'.table j) k =
        content s'.drive (s'.table j) k := by
    intro j hj hji hlj k hk
    rw [← hss]
    exact content_write_other hx' h₂ hi hli (hsi ▸ hsec) hj hlj hji hk
  refine ⟨
    { sectors := by simpa using he.sectors
      extents := hx'.congr hd
      parent := hq
      lt := hi
      free := by rw [← ht i hi]; exact hl
      entry := (hd i hi).trans hsi
      live := hsi ▸ hli
      kept := by
        rw [hd q hq.1, he.type_eq, ← hq₁]
        exact ⟨hlq, rfl⟩
      entries := fun hf => ?_
      rest := fun j hj hji hjq => (hd j hj).trans (hsj j hj hji hjq)
      contents := ?_ }, fun hle k hk => ?_⟩
  · obtain ⟨-, -, -, hentries⟩ := h.addFileToDir hf hq₁ hx h₀ hi e
    rw [hd q hq.1, dirEntries_congr (hwrite q hq.1 hqi hlq), hentries]
  · intro j hj hji hjq hlj k hk
    rw [← hsj j hj hji hjq] at hlj hk ⊢
    rw [hwrite j hj hji hlj k hk]
    rw [hsame j hjq] at hlj hk ⊢
    exact he.others j hj hjq hlj k hk
  · have hsz : (s'.table i).size.toNat = size := by
      rw [hsi, ← hen]
      exact UInt32.toNat_ofNat_of_lt' (by simp [UInt32.size]; omega)
    rw [← hsi, ← hss, ← hsz]
    rw [← hsz] at hk
    exact content_write_self (he.sectors ▸ hx') (he.sectors ▸ h₂) hi hli (by omega) hk

/-! A leaf that is put into a free entry is not listed anywhere yet. -/

theorem sameFolders_place {e : FileEntry} (hl : ¬ (t i).Live) (hf : e.IsFile) :
    SameFolders d t d (Function.update t i e) := by
  intro q hq
  have hqi : q ≠ i := by
    rintro rfl
    rcases hq with hq | hq
    · exact hl hq.2.1
    · exact hq.not_isFile (by rw [Function.update_self]; exact hf)
  exact ⟨Function.update_of_ne hqi _ _, fun k _ => rfl⟩

section Place

variable {e : FileEntry} (hl : ¬ (t i).Live) (hf : e.Leaf)
include hl hf

theorem dirTree_place_entries :
    (dirTree d (Function.update t i e) r).entries = (dirTree d t r).entries := by
  funext p
  show (if _ then _ else _) = if _ then _ else _
  by_cases hp : p = i
  · subst hp
    rw [Function.update_self, if_neg fun hp : IsFolder t p => hl hp.2.1]
    split_ifs with hp
    · refine hf.dirEntries_eq fun he => hp.not_isFile ?_
      rwa [Function.update_self]
    · rfl
  · have hfold : IsFolder (Function.update t i e) p ↔ IsFolder t p :=
      isFolder_congr (Function.update_of_ne hp e t)
    simp only [hfold, Function.update_of_ne hp]

omit hf in
theorem dirTree_place_folder {p : ℕ} (hp : (dirTree d t r).entries p ≠ []) :
    (dirTree d (Function.update t i e) r).Folder p ↔ (dirTree d t r).Folder p := by
  have hpi : p ≠ i := by
    rintro rfl
    exact hp (if_neg fun hf => hl hf.2.1)
  unfold Tree.Folder dirTree
  dsimp only
  rw [Function.update_of_ne hpi]

theorem dirTree_place_path {p : ℕ} {cs : List (List UInt8)} :
    (dirTree d (Function.update t i e) r).Path cs p ↔ (dirTree d t r).Path cs p :=
  Tree.path_congr (dirTree_place_entries hl hf) (fun _ => dirTree_place_folder hl) rfl

theorem dirTree_place_ok (h : (dirTree d t r).Ok) : (dirTree d (Function.update t i e) r).Ok :=
  Tree.Ok.congr (dirTree_place_entries hl hf) (fun _ => dirTree_place_folder hl) rfl h

end Place

namespace Added

variable {q p x : ℕ} {e : FileEntry} {name : List UInt8}

theorem ne (h : Added d d' t' q i e name) : q ≠ i := fun hqi => h.free (hqi ▸ h.parent.2)

theorem entry_iff (h : Added d d' t' q i e name) (hj : j < 640) (hji : j ≠ i) :
    ((t' j).Live ↔ (diskTable d j).Live) ∧ (t' j).type = (diskTable d j).type := by
  by_cases hjq : j = q
  · subst hjq
    exact ⟨iff_of_true h.kept.1 h.parent.2, h.kept.2⟩
  · rw [h.rest j hj hji hjq]
    exact ⟨Iff.rfl, rfl⟩

theorem isFolder_iff (h : Added d d' t' q i e name) (hpi : p ≠ i) :
    IsFolder t' p ↔ IsFolder (diskTable d) p := by
  refine and_congr_right fun hp => ?_
  obtain ⟨h₁, h₂⟩ := h.entry_iff hp hpi
  rw [h₁, FileEntry.IsDir, FileEntry.IsRoot, h₂]

theorem dirEntries_of_ne (h : Added d d' t' q i e name) (hp : IsFolder (diskTable d) p) (hpq : p ≠ q) :
    dirEntries d' (t' p) = dirEntries d (diskTable d p) := by
  have hpi : p ≠ i := fun e => h.free (e ▸ hp.2.1)
  rw [h.rest p hp.1 hpi hpq]
  exact dirEntries_congr (h.contents p hp.1 hpi hpq hp.2.1)

section Leaf

variable (h : Added d d' t' q i e name) (hok : TreeOk d (diskTable d) r)
  (hq : IsFolder (diskTable d) q) (hleaf : e.Leaf)
  (hname : ∀ x ∈ dirEntries d (diskTable d q), x.1 ≠ name.take 59)

include h hleaf in
theorem dirEntries_self (hi : IsFolder t' i) : dirEntries d' (t' i) = [] := by
  have hfile := hi.not_isFile
  rw [h.entry] at hfile ⊢
  exact hleaf.dirEntries_eq hfile

include h hok hq hleaf hname in
/-- **The tree with the new entry, which is then listed.** -/
theorem attaches : Tree.Attaches (dirTree d (Function.update (diskTable d) i e) r) (dirTree d' t' r) q
    (name.take 59) i where
  root := rfl
  isDir := by
    funext p
    show decide _ = decide _
    rw [decide_eq_decide]
    by_cases hpi : p = i
    · subst hpi
      rw [h.entry, Function.update_self]
    · rw [Function.update_of_ne hpi]
      refine and_congr_right fun hp => ?_
      obtain ⟨h₁, h₂⟩ := h.entry_iff hp hpi
      rw [h₁, FileEntry.IsDir, h₂]
  entries := by
    rw [dirTree_place_entries h.free hleaf, TreeOk.entries_eq hq,
      TreeOk.entries_eq ((h.isFolder_iff h.ne).2 hq), h.entries hq]
  others p hpq := by
    rw [dirTree_place_entries h.free hleaf]
    show (if _ then _ else _) = if _ then _ else _
    by_cases hpi : p = i
    · subst hpi
      rw [if_neg fun hp : IsFolder (diskTable d) p => h.free hp.2.1]
      split_ifs with hp
      · exact h.dirEntries_self hleaf hp
      · rfl
    · by_cases hp : IsFolder (diskTable d) p
      · rw [if_pos hp, if_pos ((h.isFolder_iff hpi).2 hp), h.dirEntries_of_ne hp hpq]
      · rw [if_neg hp, if_neg fun hp' => hp ((h.isFolder_iff hpi).1 hp')]
  folder := by
    have hqi : Function.update (diskTable d) i e q = diskTable d q := Function.update_of_ne h.ne _ _
    refine (hok.folder_iff.2 hq).imp id fun hd => ?_
    unfold dirTree at hd ⊢
    dsimp only at hd ⊢
    rwa [hqi]
  name := by
    rw [dirTree_place_entries h.free hleaf, TreeOk.entries_eq hq]
    exact hname
  fresh p x hp hx e := by
    rw [dirTree_place_entries h.free hleaf] at hx
    have hp' := hok.folder_iff.1 ((dirTree_place_folder h.free (List.ne_nil_of_mem hx)).1 hp)
    rw [TreeOk.entries_eq hp'] at hx
    exact h.free (e ▸ (hok.live p hp' x hx).2)
  ne_root e := h.free (e ▸ hok.root.2.1)

include h hq hleaf in
/-- **What folders list then.** -/
theorem mem_dirEntries (hp : IsFolder t' p) {y : List UInt8 × ℕ} (hy : y ∈ dirEntries d' (t' p)) :
    IsFolder (diskTable d) p ∧ (y ∈ dirEntries d (diskTable d p) ∨ y = (name.take 59, i)) := by
  by_cases hpi : p = i
  · subst hpi
    rw [h.dirEntries_self hleaf hp] at hy
    exact absurd hy List.not_mem_nil
  · rw [h.isFolder_iff hpi] at hp
    refine ⟨hp, ?_⟩
    by_cases hpq : p = q
    · subst hpq
      rw [h.entries hq, List.mem_append, List.mem_singleton] at hy
      exact hy
    · rw [h.dirEntries_of_ne hp hpq] at hy
      exact .inl hy

include h hok hq hleaf hname in
/-- **The tree is in order again.** -/
theorem treeOk (hn : name ≠ []) : TreeOk d' t' r where
  le_sectors := h.sectors ▸ hok.le_sectors
  sectors_le := h.sectors ▸ hok.sectors_le
  root := by
    obtain ⟨h₁, h₂⟩ := h.entry_iff hok.root.1 fun e => h.free (e ▸ hok.root.2.1)
    exact ⟨hok.root.1, h₁.2 hok.root.2.1, h₂.trans hok.root.2.2⟩
  root_unique j hj hl hr := by
    have hji : j ≠ i := by
      rintro rfl
      rw [h.entry] at hr
      exact hleaf.not_isRoot hr
    obtain ⟨h₁, h₂⟩ := h.entry_iff hj hji
    exact hok.root_unique j hj (h₁.1 hl) (h₂.symm.trans hr)
  live p hp y hy := by
    obtain ⟨hp', hy | rfl⟩ := h.mem_dirEntries hq hleaf hp hy
    · obtain ⟨h₁, h₂⟩ := hok.live p hp' y hy
      exact ⟨h₁, (h.entry_iff h₁ fun e => h.free (e ▸ h₂)).1.2 h₂⟩
    · exact ⟨h.lt, h.entry ▸ h.live⟩
  names p hp y hy := by
    obtain ⟨hp', hy | rfl⟩ := h.mem_dirEntries hq hleaf hp hy
    · exact hok.names p hp' y hy
    · have hlen := List.length_take_le 59 name
      exact ⟨by simpa using hn, by dsimp only; omega⟩
  tree := (h.attaches hok hq hleaf hname).ok (dirTree_place_ok h.free hleaf hok.tree)
  extents := h.sectors ▸ h.extents

include h hok hq hleaf hname in
/-- **The new entry has the path of its folder and its name; no other entry has a new path.** -/
theorem path {cs cs₀ : List (List UInt8)} (hp : (dirTree d (diskTable d) r).Path cs₀ q) :
    (dirTree d' t' r).Path cs x ↔
      (dirTree d (diskTable d) r).Path cs x ∨ cs = cs₀ ++ [name.take 59] ∧ x = i := by
  have hempty : (dirTree d (Function.update (diskTable d) i e) r).entries i = [] := by
    rw [dirTree_place_entries h.free hleaf]
    exact if_neg fun hf => h.free hf.2.1
  rw [(h.attaches hok hq hleaf hname).path (dirTree_place_ok h.free hleaf hok.tree)
    ((dirTree_place_path h.free hleaf).2 hp), dirTree_place_path h.free hleaf]
  refine or_congr_right ⟨?_, ?_⟩
  · rintro ⟨rest, rfl, hb⟩
    obtain ⟨rfl, rfl⟩ := hb.eq_of_leaf fun _ => hempty
    exact ⟨rfl, rfl⟩
  · rintro ⟨rfl, rfl⟩
    exact ⟨[], rfl, .here⟩

end Leaf

end Added

theorem TreeOk.fresh_name (h : TreeOk d (diskTable d) r) {cs : List (List UInt8)} {q : ℕ}
    {name : List UInt8} (hp : (dirTree d (diskTable d) r).Path cs q) (hq : IsFolder (diskTable d) q)
    (hnone : (dirTree d (diskTable d) r).walk r (cs ++ [name]) = none) :
    ∀ x ∈ dirEntries d (diskTable d q), x.1 ≠ name := by
  rintro ⟨c, p⟩ hx rfl
  rw [← entries_eq (r := r) hq] at hx
  have hw := h.tree.walk_root.2 (.snoc hp (h.folder_iff.2 hq) hx)
  exact absurd (hnone.symm.trans hw) (by simp)

/-! ## Creating a file -/

/-- Between drives `d` and `d'`, entry `i` has become a file that folder `q` lists as `name`. -/
structure Created (d d' : Drive) (q i : ℕ) (name : List UInt8) (data : Buf) (size : ℕ) : Prop where
  sectors : d'.sectorCount = d.sectorCount
  extents : ExtentsOk d.sectorCount (diskTable d')
  folder : IsFolder (diskTable d) q
  lt : i < 640
  free : ¬ (diskTable d i).Live
  file : ∃ start, diskTable d' i = ⟨magic, FileType.file.code, start, UInt32.ofNat size⟩
  bytes : ∀ k < size, content d' (diskTable d' i) k = data k
  live : (diskTable d' q).Live
  type : (diskTable d' q).type = (diskTable d q).type
  entries : dirEntries d' (diskTable d' q) = dirEntries d (diskTable d q) ++ [(name, i)]
  rest : ∀ j < 640, j ≠ i → j ≠ q → diskTable d' j = diskTable d j
  contents : ∀ j < 640, j ≠ i → j ≠ q → (diskTable d j).Live →
    ∀ k < (diskTable d j).size.toNat, content d' (diskTable d j) k = content d (diskTable d j) k

theorem Added.created {q : ℕ} {start : UInt32} {name : List UInt8}
    (h : Added d d' (diskTable d') q i ⟨magic, FileType.file.code, start, UInt32.ofNat size⟩ name)
    (hq : IsFolder (diskTable d) q) (hn : name.length < 60)
    (hb : ∀ k < size, content d' (diskTable d' i) k = data k) :
    Created d d' q i name data size := by
  have hentries := h.entries hq
  rw [List.take_of_length_le (by omega)] at hentries
  exact ⟨h.sectors, h.extents, hq, h.lt, h.free, ⟨start, h.entry⟩, hb, h.kept.1, h.kept.2, hentries, h.rest,
    h.contents⟩

namespace Created

variable {q : ℕ} {name : List UInt8}

theorem isFile (h : Created d d' q i name data size) :
    (diskTable d' i).Live ∧ (diskTable d' i).IsFile := by
  obtain ⟨start, e⟩ := h.file
  rw [e]
  exact ⟨rfl, rfl⟩

theorem added (h : Created d d' q i name data size) (hn : name.length < 60) :
    Added d d' (diskTable d') q i (diskTable d' i) name where
  sectors := h.sectors
  extents := h.extents
  parent := ⟨h.folder.1, h.folder.2.1⟩
  lt := h.lt
  free := h.free
  entry := rfl
  live := h.isFile.1
  kept := ⟨h.live, h.type⟩
  entries _ := by
    rw [List.take_of_length_le (by omega)]
    exact h.entries
  rest := h.rest
  contents := h.contents

/-- **The tree has one more leaf.** -/
theorem addsLeaf (h : Created d d' q i name data size) (hok : TreeOk d (diskTable d) r)
    (hname : ∀ x ∈ dirEntries d (diskTable d q), x.1 ≠ name) (hn : name.length < 60) :
    Tree.AddsLeaf (dirTree d (diskTable d) r) (dirTree d' (diskTable d') r) q name i := by
  have htake : name.take 59 = name := List.take_of_length_le (by omega)
  have hatt := (h.added hn).attaches hok h.folder (.inl h.isFile.2) (by rwa [htake])
  rw [(sameFolders_place h.free h.isFile.2).dirTree, htake] at hatt
  exact { hatt with leaf := fun hp => h.free (hok.folder_iff.1 hp).2.1 }

/-- **A file that has been created is there.** -/
theorem written (h : Created d d' q i name data size) (hs : DiskSound d r) {cs : List (List UInt8)}
    (hq : (dirTree d (diskTable d) r).walk r cs = some q)
    (hnone : (dirTree d (diskTable d) r).walk r (cs ++ [name]) = none)
    (hn : name ≠ [] ∧ name.length < 60) (hsize : size ≤ 255 * 512) :
    Written d d' r i (cs ++ [name]) data size := by
  have hok := hs.treeOk
  have hp : (dirTree d (diskTable d) r).Path cs q := hok.tree.walk_root.1 hq
  have hname := hok.fresh_name hp h.folder hnone
  have hleaf := h.addsLeaf hok hname hn.2
  have hadded := h.added hn.2
  obtain ⟨start, hfile⟩ := h.file
  refine
    { sound := ⟨hadded.treeOk hok h.folder (.inl h.isFile.2) ?_ hn.1, fun j hj hl => ?_⟩
      lt := h.lt
      live := h.isFile.1
      file := h.isFile.2
      size_eq := by
        rw [hfile]
        exact UInt32.toNat_ofNat_of_lt' (by simp [UInt32.size]; omega)
      bytes := h.bytes
      here := hleaf.walk_new hok.tree hp
      elsewhere := fun cs' hcs => hleaf.walk_other hok.tree hp hcs
      others := fun j hj hji hl hf => ?_ }
  · rwa [List.take_of_length_le (by omega)]
  · by_cases hji : j = i
    · subst hji
      exact ⟨_, (hleaf.path _ _).2 (.inr ⟨cs, hp, rfl, rfl⟩)⟩
    · obtain ⟨cs', hcs'⟩ := hs.path j hj ((hadded.entry_iff hj hji).1.1 hl)
      exact ⟨cs', hleaf.attaches.path_mono hcs'⟩
  · have hjq : j ≠ q := by
      rintro rfl
      exact h.folder.not_isFile hf
    exact ⟨h.rest j hj hji hjq, h.contents j hj hji hjq hl⟩

end Created

end EitanOS
