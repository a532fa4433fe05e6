import EitanOS.Disk.WriteRead

/-!
# A new entry of any type and size

`filesystem_write_file` enters a new file into the table before it looks up its parent, and for a size
whose number of sectors wraps around to 0 it takes sector 641 without a look at who has it.

* `createsIn`: the entry that the record of the new one goes to, by the searches of the code.
  **`writeFile_fst_eq`**: a path that does not exist is created exactly if there is one.
* `EditedAt`, **`editFile_editedAt`**: the bytes that an edit changes.
* **`TableOk.placed_space`**: where the parent is moved to. **`Placed`**, **`TreeOk.placed`**: what a new
  entry leaves behind. For a size that wraps around, this is everything but what starts at sector 641.
-/

namespace EitanOS

open Bytes Names

variable {d d' : Drive} {t : FileTable} {sc r i j p size n k : ℕ} {path : List UInt8} {data buf : Buf}
  {type : FileType} {junk : Junk} {s s' : Fs} {start start' : UInt32}

/-- The entry that gets the record of a new entry of this type and size: what the parent resolves to once
the new entry is in the table, if it is in use and there is space for it with one record more. -/
def createsIn (junk : Junk) (d : Drive) (path : List UInt8) (type : FileType) (size : ℕ) : Option ℕ :=
  if fileExists (junk.sub 0) d path then none
  else
    let t := loadFileTable (junk.sub 1) d
    match findSpaceForFile d t size, findFileEntrySlot t with
    | some start, some i =>
      let t : FileTable := Function.update t i ⟨magic, type.code, start, UInt32.ofNat size⟩
      (resolvePath (junk.sub 2) d t (splitPath path).1).filter fun dir =>
        (t dir).Live ∧ (findSpaceForFile d (t.clear dir) (((t dir).size.toNat / 64 + 1) * 64)).isSome
    | _, _ => none

theorem addFileToDir_fst (junk : Junk) (dir i : ℕ) (name : List UInt8) :
    (addFileToDir junk ⟨d, t⟩ dir i name).1 = decide ((t dir).Live ∧
      (findSpaceForFile d (t.clear dir) (((t dir).size.toNat / 64 + 1) * 64)).isSome) := by
  unfold addFileToDir
  by_cases hl : (t dir).Live
  · simp only [editFile_fst (s := ⟨d, t⟩) _ hl, and_iff_right hl, Bool.decide_eq_true]
  · unfold editFile
    rw [if_neg hl, decide_eq_false fun h => hl h.1]

/-- **A path that does not exist is created** exactly if its record has a place to go. -/
theorem writeFile_fst_eq (hv : isValidPath path = true)
    (hnew : fileExists (junk.sub 0) d path = false) :
    (writeFile junk d path data type size).1 = (createsIn junk d path type size).isSome := by
  unfold writeFile createsIn
  dsimp only
  rw [if_pos hv, hnew, Bool.not_false, Bool.not_true, if_neg Bool.false_ne_true,
    if_neg Bool.false_ne_true]
  cases findSpaceForFile d (loadFileTable (junk.sub 1) d) size with
  | none => rfl
  | some start =>
    cases findFileEntrySlot (loadFileTable (junk.sub 1) d) with
    | none => rfl
    | some i =>
      dsimp only
      generalize (Function.update (loadFileTable (junk.sub 1) d) i
        ⟨magic, type.code, start, UInt32.ofNat size⟩ : FileTable) = t
      cases resolvePath (junk.sub 2) d t (splitPath path).1 with
      | none => rfl
      | some dir =>
        dsimp only
        have hfst := addFileToDir_fst (d := d) (t := t) (junk.sub 3) dir i (splitPath path).2
        rw [Option.filter_some, ← hfst]
        rcases addFileToDir (junk.sub 3) ⟨d, t⟩ dir i (splitPath path).2 with ⟨_ | _, s⟩
        · rfl
        · rfl

/-! ## The bytes of an edit -/

/-- Entry `p` now starts at `start`, and of the bytes behind the table only those of its `n` bytes have
changed. -/
structure EditedAt (s s' : Fs) (p : ℕ) (start : UInt32) (buf : Buf) (n : ℕ) : Prop where
  table : s'.table = Function.update s.table p ⟨magic, (s.table p).type, start, UInt32.ofNat n⟩
  sectors : s'.drive.sectorCount = s.drive.sectorCount
  saved : ∀ j < 640, diskTable s'.drive j = s'.table j
  outside : ∀ b, 641 * 512 ≤ b → b < start.toNat * 512 ∨ (start.toNat + (n + 511) / 512) * 512 ≤ b →
    s'.drive.bytes b = s.drive.bytes b
  inside : n ≤ 255 * 512 → ∀ k < n, s'.drive.bytes (start.toNat * 512 + k) = buf k

theorem editFile_editedAt (e : editFile s p buf n = (true, s')) (h₁ : 642 ≤ s.drive.sectorCount)
    (h₂ : s.drive.sectorCount ≤ 65535)
    (hspace : findSpaceForFile s.drive (s.table.clear p) n = some start) (hn : n ≤ 2 ^ 32)
    (hst : 641 ≤ start.toNat) (hfit : start.toNat + (n + 511) / 512 ≤ s.drive.sectorCount - 1) :
    (s.table p).Live ∧ EditedAt s s' p start buf n := by
  obtain ⟨hl, start', hf, rfl⟩ := editFile_true e
  obtain rfl := Option.some.inj (hspace.symm.trans hf)
  have hsec : sectorsOf n ≤ (n + 511) / 512 := by
    rw [sectorsOf, if_pos (by omega)]
    exact Nat.mod_le _ _
  refine ⟨hl, rfl, by simp, fun j hj => ?_, fun b hb hout => ?_, fun hle k hk => ?_⟩
  · exact diskTable_save _ (by rw [writeSectors_sectorCount]; omega)
      (by rw [writeSectors_sectorCount]; exact h₂) hj
  · rw [saveFileTable_outside _ (by omega)]
    apply writeSectors_outside (by omega)
    rcases hout with hout | hout
    · exact .inl hout
    · exact .inr ((Nat.mul_le_mul_right _ (Nat.add_le_add_left hsec _)).trans hout)
  · rw [saveFileTable_outside _ (by omega)]
    exact writeSectors_inside hle h₂ (by omega) hk

theorem EditedAt.content_of_apart (h : EditedAt s s' p start buf n) {e : FileEntry}
    (he : 641 ≤ e.startSector.toNat)
    (hd : start.toNat + (n + 511) / 512 ≤ e.startSector.toNat ∨ e.stop ≤ start.toNat)
    (hk : k < e.size.toNat) : content s'.drive e k = content s.drive e k := by
  refine h.outside _ (Nat.le_add_right_of_le (Nat.mul_le_mul_right 512 he)) ?_
  unfold FileEntry.stop FileEntry.sectors at hd
  omega

/-- One more write, to sector 641, leaves alone what starts behind it. -/
theorem EditedAt.content_wraps (h : EditedAt s s' p start buf n) (hs : ¬ SeeksSpace size)
    (hst : 641 < start.toNat) (hn : n ≤ 255 * 512) {e : FileEntry} (he : e.startSector = start)
    (data : Buf) (hk : k < n) : content (writeSectors s'.drive 641 data size) e k = buf k := by
  have hsec := sectorsOf_wraps hs
  rw [← h.inside hn k hk, content, he]
  exact writeSectors_outside (by omega) (.inr (by omega))

/-! ## Where things go -/

/-- **The place of the parent** of a new entry. For a size that wraps around, the new entry has no
sectors for the search, and hides what starts where it starts. -/
theorem TableOk.placed_space (h : TableOk sc ⟨d, t⟩) (hspace : findSpaceForFile d t size = some start)
    (hl : ¬ (t i).Live) (type : UInt32) (hn : 0 < n) (hn' : n ≤ 2 ^ 32)
    (e : findSpaceForFile d (FileTable.clear (Function.update t i
      ⟨magic, type, start, UInt32.ofNat size⟩) p) n = some start') :
    641 ≤ start'.toNat ∧ start'.toNat + (n + 511) / 512 ≤ sc - 1 ∧
      ∀ j, Occupied t j → j ≠ p → SeeksSpace size ∨ (t j).startSector ≠ 641 →
        start'.toNat + (n + 511) / 512 ≤ (t j).startSector.toNat ∨ (t j).stop ≤ start'.toNat := by
  have hx := h.extents
  have hplace := fun hs : SeeksSpace size => h.place (i := i) hs type (fun j hj _ => ⟨hj, rfl⟩) hx hspace
  obtain ⟨rfl, h₁, h₂, -⟩ := h
  dsimp only at hx hplace h₁ h₂ ⊢
  generalize hen : FileEntry.mk magic type start (UInt32.ofNat size) = en at e hplace
  have hne : ∀ j, Occupied t j → j ≠ i := by
    rintro j hj rfl
    exact hl hj.2.1
  have hkeep : ∀ j, j ≠ i → j ≠ p → FileTable.clear (Function.update t i en) p j = t j := fun j hji hjp => by
    rw [FileTable.clear_of_ne hjp, Function.update_of_ne hji]
  have hold : ∀ j, Occupied t j → j ≠ p → Occupied (FileTable.clear (Function.update t i en) p) j ∧
      FileTable.clear (Function.update t i en) p j = t j := fun j hj hjp =>
    ⟨(occupied_congr (hkeep j (hne j hj) hjp)).2 hj, hkeep j (hne j hj) hjp⟩
  by_cases hs : SeeksSpace size
  · obtain ⟨g₁, g₂, g₃⟩ := findSpaceForFile_spec ((hplace hs).1.clear p) h₁ h₂ hn' e
    refine ⟨g₁, g₂, fun j hj hjp _ => ?_⟩
    obtain ⟨ho, htj⟩ := hold j hj hjp
    have := g₃ j ho
    rwa [htj] at this
  · obtain rfl : 641 = start := Option.some.inj ((findSpaceForFile_wraps hs d t).symm.trans hspace)
    have hocc : ∀ j, j ≠ i → Occupied (FileTable.clear (Function.update t i en) p) j →
        Occupied t j ∧ FileTable.clear (Function.update t i en) p j = t j := fun j hji hj =>
      ⟨(occupied_congr (hkeep j hji hj.clear.2)).1 hj, hkeep j hji hj.clear.2⟩
    by_cases hpi : p = i
    · subst hpi
      obtain ⟨g₁, g₂, g₃⟩ := findSpaceForFile_spec
        (hx.mono fun j hj => hocc j hj.clear.2 hj) h₁ h₂ hn' e
      refine ⟨g₁, g₂, fun j hj hjp _ => ?_⟩
      obtain ⟨ho, htj⟩ := hold j hj hjp
      have := g₃ j ho
      rwa [htj] at this
    · have hhollow : (FileTable.clear (Function.update t i en) p i).Hollow := by
        rw [FileTable.clear_of_ne (Ne.symm hpi), Function.update_self, ← hen]
        exact hollow_wraps hs type
      obtain ⟨g₁, g₂, g₃⟩ := findSpaceForFile_hollow hhollow (hx.mono fun j hj => by
        obtain ⟨ho, htj⟩ := hocc j hj.clear.2 hj.clear.1
        exact ⟨ho, (FileTable.clear_of_ne hj.clear.2).trans htj⟩) h₁ h₂ hn hn' e
      refine ⟨g₁, g₂, fun j hj hjp hst => ?_⟩
      obtain ⟨ho, htj⟩ := hold j hj hjp
      have := g₃ j ho (hne j hj) (by rw [htj]; exact hst.resolve_left hs)
      rwa [htj] at this

/-- **The data of a new entry** meets no other extent, unless it wraps around. -/
theorem TableOk.content_placed (h : TableOk sc ⟨d, t⟩) (hspace : findSpaceForFile d t size = some start)
    (hj : Occupied t j) (hs : SeeksSpace size ∨ (t j).startSector ≠ 641) (hk : k < (t j).size.toNat) :
    content (writeSectors d' start.toNat data size) (t j) k = content d' (t j) k := by
  obtain ⟨rfl, h₁, h₂, hx⟩ := h
  have hge := hx.start j hj
  by_cases hseeks : SeeksSpace size
  · obtain ⟨hmod, hsec⟩ := findSpaceForFile_mod hx h₁ h₂ hseeks hspace
    obtain ⟨-, g₂, g₃⟩ := findSpaceForFile_spec hx h₁ h₂ (by omega) hmod
    have hd := g₃ j hj
    unfold FileEntry.stop FileEntry.sectors at hd
    dsimp only at *
    apply writeSectors_outside (by omega)
    rcases hd with hd | hd
    · right
      omega
    · left
      omega
  · have hne : (t j).startSector.toNat ≠ 641 := fun e =>
      hs.resolve_left hseeks (UInt32.toNat_inj.mp e)
    obtain rfl : 641 = start := Option.some.inj ((findSpaceForFile_wraps hseeks d t).symm.trans hspace)
    have h641 : (641 : UInt32).toNat = 641 := rfl
    dsimp only at *
    apply writeSectors_outside (by rw [h641]; omega)
    rw [h641, sectorsOf_wraps hseeks]
    right
    omega

/-! ## What a new entry leaves behind -/

/-- Between drives `d` and `d'`, entry `i` has been made with `size` bytes of `data`, and entry `p` has been
given its record and starts at `start`. -/
structure Placed (d d' : Drive) (p i : ℕ) (e : FileEntry) (start : UInt32) (name : List UInt8)
    (data : Buf) (size : ℕ) : Prop where
  sectors : d'.sectorCount = d.sectorCount
  slot : findFileEntrySlot (diskTable d) = some i
  entry : i ≠ p → diskTable d' i = e
  parent : p ≠ i → p < 640 → (diskTable d p).Live ∧ diskTable d' p = ⟨magic, (diskTable d p).type, start,
    UInt32.ofNat (((diskTable d p).size.toNat / 64 + 1) * 64)⟩
  fits : p ≠ i → p < 640 → 641 ≤ start.toNat ∧
    start.toNat + (((diskTable d p).size.toNat / 64 + 1) * 64 + 511) / 512 ≤ d.sectorCount - 1
  rest : ∀ j < 640, j ≠ i → j ≠ p → diskTable d' j = diskTable d j
  contents : ∀ j, Occupied (diskTable d) j → j ≠ p →
    SeeksSpace size ∨ (diskTable d j).startSector ≠ 641 → ∀ k < (diskTable d j).size.toNat,
      content d' (diskTable d j) k = content d (diskTable d j) k
  entries : IsFolder (diskTable d) p → SeeksSpace size ∨ start ≠ 641 →
    dirEntries d' (diskTable d' p) = dirEntries d (diskTable d p) ++ [(name.take 59, i)]
  bytes : ¬ SeeksSpace size → 642 < d.sectorCount → ∀ k < 512, d'.bytes (641 * 512 + k) = data k

theorem writeSectors_wraps (hs : ¬ SeeksSpace size) (hd : 642 < d.sectorCount) (hk : k < 512) :
    (writeSectors d 641 data size).bytes (641 * 512 + k) = data k := by
  have hcount := sectorsOf_wraps hs
  have hsize : k < size := by
    unfold SeeksSpace at hs
    omega
  simp only [writeSectors]
  rw [if_neg (by omega), hcount, Nat.mod_eq_of_lt (a := 641) (by omega)]
  dsimp only
  rw [put_inside (by omega) (by omega), Nat.add_sub_cancel_left, if_pos hsize]

theorem TableOk.start_bounds (h : TableOk sc ⟨d, t⟩) (hspace : findSpaceForFile d t size = some start) :
    641 ≤ start.toNat ∧ start.toNat ≤ 65535 := by
  by_cases hs : SeeksSpace size
  · exact (h.place (i := 0) hs 0 (fun j hj _ => ⟨hj, rfl⟩) h.extents hspace).2
  · obtain rfl : 641 = start := Option.some.inj ((findSpaceForFile_wraps hs d t).symm.trans hspace)
    decide

theorem start_wraps (hs : ¬ SeeksSpace size) (hspace : findSpaceForFile d t size = some start) :
    start.toNat = 641 := by
  rw [findSpaceForFile_wraps hs] at hspace
  cases hspace
  rfl

section Placed

variable {type : UInt32} {name : List UInt8} (h : TreeOk d (diskTable d) r)
  (ht : ∀ j < 640, t j = diskTable d j) (hspace : findSpaceForFile d t size = some start)
  (hslot : findFileEntrySlot t = some i) {t₁ : FileTable}
  (ht₁ : Function.update t i ⟨magic, type, start, UInt32.ofNat size⟩ = t₁)
  (e : EitanOS.addFileToDir junk ⟨d, t₁⟩ p i name = (true, s'))

include h ht hspace hslot ht₁ e in
theorem TreeOk.added_editedAt : ∃ start', (t₁ p).Live ∧
    (641 ≤ start'.toNat ∧
      start'.toNat + (((t₁ p).size.toNat / 64 + 1) * 64 + 511) / 512 ≤ d.sectorCount - 1) ∧
    (∀ j, Occupied t j → j ≠ p → SeeksSpace size ∨ (t j).startSector ≠ 641 →
      start'.toNat + (((t₁ p).size.toNat / 64 + 1) * 64 + 511) / 512 ≤ (t j).startSector.toNat ∨
        (t j).stop ≤ start'.toNat) ∧
    EditedAt ⟨d, t₁⟩ s' p start'
      (putDirEntry (EitanOS.loadEntries junk ⟨d, t₁⟩ p) ((t₁ p).size.toNat / 64) i name)
      (((t₁ p).size.toNat / 64 + 1) * 64) := by
  have hn : ((t₁ p).size.toNat / 64 + 1) * 64 ≤ 2 ^ 32 := by
    have := (t₁ p).size.toNat_lt
    omega
  unfold EitanOS.addFileToDir at e
  dsimp only at e
  rw [Nat.add_sub_cancel] at e
  obtain ⟨hlp, start', hf, -⟩ := editFile_true e
  dsimp only at hlp hf
  obtain ⟨g₁, g₂, g₃⟩ := (h.load ht).1.tableOk.placed_space hspace (findFileEntrySlot_spec hslot).2 type
    (p := p) (Nat.mul_pos (Nat.succ_pos _) (by decide)) hn (by rw [ht₁]; exact hf)
  exact ⟨start', hlp, ⟨g₁, g₂⟩, g₃, (editFile_editedAt e h.le_sectors h.sectors_le hf hn g₁ g₂).2⟩

include h ht hslot ht₁ in
/-- **The parent of a new entry lists it**, unless its data is written over what it lists. -/
theorem TreeOk.dirEntries_placed (h₀ : (0 : UInt8) ∉ name) (hf : IsFolder (diskTable d) p)
    (hs : ¬ SeeksSpace size) {start' : UInt32} (hst : 641 < start'.toNat)
    (he : EditedAt ⟨d, t₁⟩ s' p start'
      (putDirEntry (EitanOS.loadEntries junk ⟨d, t₁⟩ p) ((t₁ p).size.toNat / 64) i name)
      (((t₁ p).size.toNat / 64 + 1) * 64)) (data : Buf) :
    dirEntries (writeSectors s'.drive 641 data size) ⟨magic, (diskTable d p).type, start',
      UInt32.ofNat (((diskTable d p).size.toNat / 64 + 1) * 64)⟩ =
        dirEntries d (diskTable d p) ++ [(name.take 59, i)] := by
  obtain ⟨hi, hl⟩ := findFileEntrySlot_spec hslot
  have hpi : p ≠ i := by
    rintro rfl
    exact hl (ht p hi ▸ hf.2.1)
  have hp : t₁ p = diskTable d p := by rw [← ht₁, Function.update_of_ne hpi, ht p hf.1]
  have hcount := h.count_le hf
  rw [hp] at he
  refine h.dirEntries_added hf hp junk h₀ hi ?_ fun k hk => he.content_wraps hs hst (by omega) rfl data hk
  exact UInt32.toNat_ofNat_of_lt' (by simp [UInt32.size]; omega)

include h ht hspace hslot ht₁ e in
/-- **What `filesystem_write_file` does to create an entry**, once it has a place, an entry and its
parent. -/
theorem TreeOk.placed_of_added (h₀ : (0 : UInt8) ∉ name) (data : Buf) :
    ∃ start', Placed d (writeSectors s'.drive start.toNat data size) p i
      ⟨magic, type, start, UInt32.ofNat size⟩ start' name data size := by
  have htab := (h.load ht).1.tableOk
  obtain ⟨hi, hl⟩ := findFileEntrySlot_spec hslot
  obtain ⟨hst, hst'⟩ := htab.start_bounds hspace
  obtain ⟨start', hlp, hfit, hap, he⟩ := h.added_editedAt ht hspace hslot ht₁ e
  have hj₁ : ∀ j < 640, j ≠ i → t₁ j = diskTable d j := fun j hj hji => by
    rw [← ht₁, Function.update_of_ne hji, ht j hj]
  have htable : ∀ j < 640, diskTable (writeSectors s'.drive start.toNat data size) j = Function.update t₁ p
      ⟨magic, (t₁ p).type, start', UInt32.ofNat (((t₁ p).size.toNat / 64 + 1) * 64)⟩ j := fun j hj => by
    rw [diskTable_writeSectors (by omega) (by omega) hj, he.saved j hj, he.table]
  have hparent : p ≠ i → p < 640 → (diskTable d p).Live ∧
      diskTable (writeSectors s'.drive start.toNat data size) p = ⟨magic, (diskTable d p).type, start',
        UInt32.ofNat (((diskTable d p).size.toNat / 64 + 1) * 64)⟩ := by
    intro hpi hp
    rw [htable p hp, Function.update_self, ← hj₁ p hp hpi]
    exact ⟨hlp, rfl⟩
  refine ⟨start',
    { sectors := writeSectors_sectorCount.trans he.sectors
      slot := (findFileEntrySlot_congr ht).symm.trans hslot
      entry := fun hip => by rw [htable i hi, Function.update_of_ne hip, ← ht₁, Function.update_self]
      parent := hparent
      fits := fun hpi hp => by rw [← hj₁ p hp hpi]; exact hfit
      rest := fun j hj hji hjp => by rw [htable j hj, Function.update_of_ne hjp, hj₁ j hj hji]
      contents := fun j hj hjp hs k hk => ?_
      entries := fun hf hs => ?_
      bytes := fun hs hsc k hk => ?_ }⟩
  · have hoj : Occupied t j := (occupied_congr (ht j hj.1)).2 hj
    rw [← ht j hj.1] at hs hk ⊢
    rw [htab.content_placed hspace hoj hs hk]
    exact he.content_of_apart (htab.extents.start j hoj) (hap j hoj hjp hs) hk
  · by_cases hseeks : SeeksSpace size
    · subst ht₁
      exact (h.added data ht hspace hseeks hi hl ⟨hf.1, hf.2.1⟩ h₀ e).1.entries hf
    · have hne : start'.toNat ≠ 641 := fun e => hs.resolve_left hseeks (UInt32.toNat_inj.mp e)
      have hpi : p ≠ i := by
        rintro rfl
        exact hl (ht p hi ▸ hf.2.1)
      rw [(hparent hpi hf.1).2, start_wraps hseeks hspace]
      exact h.dirEntries_placed ht hslot ht₁ h₀ hf hseeks (by omega) he data
  · rw [start_wraps hs hspace]
    exact writeSectors_wraps hs (by rw [he.sectors]; exact hsc) hk

end Placed

/-- **What a write that succeeds does on a path that does not exist**, for any type and size. -/
theorem TreeOk.placed (h : TreeOk d (diskTable d) r) (hnew : fileExists (junk.sub 0) d path = false)
    (e : writeFile junk d path data type size = (true, d')) :
    ∃ p i start start', createsIn junk d path type size = some p ∧ Placed d d' p i
      ⟨magic, type.code, start, UInt32.ofNat size⟩ start' (splitPath path).2 data size := by
  obtain ⟨hv, ⟨hold, -⟩ | ⟨-, start, i, p, s', hspace, hslot, hp, ha, rfl⟩⟩ := writeFile_true e
  · rw [hnew] at hold
    cases hold
  have ht : ∀ j < 640, loadFileTable (junk.sub 1) d j = diskTable d j := fun j hj =>
    h.loadFileTable_eq _ hj
  have hcreates : createsIn junk d path type size = some p := by
    have hfst := addFileToDir_fst (junk.sub 3) p i (splitPath path).2 ▸ congrArg Prod.fst ha
    unfold createsIn
    dsimp only
    rw [hnew, if_neg Bool.false_ne_true, hspace, hslot]
    dsimp only
    rw [hp, Option.filter_some, if_pos hfst]
  have hne : path ≠ [slash] := by
    rintro rfl
    rw [h.fileExists_iff _ hv, strSplit_slash] at hnew
    cases hnew
  obtain ⟨-, -, -, -, -, rfl, hname⟩ := validPath_split hv hne
  obtain ⟨start', hplaced⟩ := h.placed_of_added ht hspace hslot rfl ha hname.zero_notMem data
  exact ⟨p, i, start, start', hcreates, hplaced⟩

end EitanOS
