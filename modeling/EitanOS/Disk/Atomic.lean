import EitanOS.Disk.Files

/-!
# Failed operations

`edit_file` is the only function that writes to the drive before the last step that can fail, and
it writes only once it cannot fail any more. So an operation that returns `false` has written
nothing (**`failed_operation_unchanged`**). `writeFile_true` says what a write that succeeds has done.
-/

namespace EitanOS

open Bytes

variable {junk : Junk} {d d' : Drive} {path newPath : List UInt8} {s : Fs} {i dir : ℕ}

theorem editFile_fst (data : Buf) {size : ℕ} (hl : (s.table i).Live) :
    (editFile s i data size).1 = (findSpaceForFile s.drive (s.table.clear i) size).isSome := by
  rw [editFile, if_pos hl]
  cases findSpaceForFile s.drive (s.table.clear i) size <;> rfl

theorem editFile_false {data : Buf} {size : ℕ} (h : (editFile s i data size).1 = false) :
    (editFile s i data size).2 = s := by
  unfold editFile at h ⊢
  split_ifs at h ⊢ with hl
  · cases hf : findSpaceForFile s.drive (s.table.clear i) size with
    | none => rfl
    | some start => simp [hf] at h
  · rfl

/-- **What `edit_file` has done where it succeeds.** -/
theorem editFile_true {s' : Fs} {data : Buf} {size : ℕ} (h : editFile s i data size = (true, s')) :
    (s.table i).Live ∧ ∃ start, findSpaceForFile s.drive (s.table.clear i) size = some start ∧
      s' = ⟨saveFileTable (writeSectors s.drive start.toNat data size)
        (Function.update s.table i ⟨magic, (s.table i).type, start, UInt32.ofNat size⟩),
        Function.update s.table i ⟨magic, (s.table i).type, start, UInt32.ofNat size⟩⟩ := by
  unfold editFile at h
  split_ifs at h with hl
  · cases hf : findSpaceForFile s.drive (s.table.clear i) size with
    | none =>
      rw [hf] at h
      cases h
    | some start =>
      rw [hf] at h
      exact ⟨hl, start, rfl, (Prod.mk.inj h).2.symm⟩
  · cases h

theorem addFileToDir_false {name : List UInt8} (h : (addFileToDir junk s dir i name).1 = false) :
    (addFileToDir junk s dir i name).2 = s := by
  unfold addFileToDir at h ⊢
  exact editFile_false h

theorem removeFileFromDir_false {s' : Fs} (h : removeFileFromDir junk s dir i = some (false, s')) :
    s' = s := by
  unfold removeFileFromDir at h
  dsimp only at h
  split_ifs at h
  have h' := Option.some.inj h
  have hf := editFile_false (congrArg Prod.fst h')
  exact (congrArg Prod.snd h').symm.trans hf

theorem unlinkEntry_false (h : unlinkEntry junk s path i = some (false, d')) : d' = s.drive := by
  unfold unlinkEntry at h
  split at h
  · exact (congrArg Prod.snd (Option.some.inj h)).symm
  · obtain ⟨⟨success, s'⟩, hr, h⟩ := Option.map_eq_some_iff.mp h
    cases success with
    | true => exact absurd (congrArg Prod.fst h) (by simp)
    | false =>
      rw [removeFileFromDir_false hr] at h
      exact (congrArg Prod.snd h).symm

theorem writeFile_false {data : Buf} {type : FileType} {size : ℕ}
    (h : (writeFile junk d path data type size).1 = false) :
    (writeFile junk d path data type size).2 = d := by
  unfold writeFile at h ⊢
  split_ifs at h ⊢ with hv
  · dsimp only at h ⊢
    split_ifs at h ⊢ with hn
    · -- the file exists
      split at h
      · rfl
      · split_ifs at h ⊢ with hf
        · dsimp only at h ⊢
          rw [editFile_false h]
        · rfl
    · -- a new file
      split at h
      · rfl
      · split at h
        · rfl
        · split at h
          · rfl
          · split_ifs at h ⊢ with ha
            rw [addFileToDir_false (by simpa using ha)]
  · rfl

/-- **What a write that succeeds has done**: edit the file at the path, or add an entry to the folder
and write its data. -/
theorem writeFile_true {data : Buf} {type : FileType} {size : ℕ}
    (e : writeFile junk d path data type size = (true, d')) : isValidPath path = true ∧
    ((fileExists (junk.sub 0) d path = true ∧ ∃ i s',
        resolvePath (junk.sub 2) d (loadFileTable (junk.sub 1) d) path = some i ∧
        (loadFileTable (junk.sub 1) d i).IsFile ∧
        editFile ⟨d, loadFileTable (junk.sub 1) d⟩ i data size = (true, s') ∧ d' = s'.drive) ∨
      fileExists (junk.sub 0) d path = false ∧ ∃ start i dir s',
        findSpaceForFile d (loadFileTable (junk.sub 1) d) size = some start ∧
        findFileEntrySlot (loadFileTable (junk.sub 1) d) = some i ∧
        resolvePath (junk.sub 2) d (Function.update (loadFileTable (junk.sub 1) d) i
          ⟨magic, type.code, start, UInt32.ofNat size⟩) (splitPath path).1 = some dir ∧
        addFileToDir (junk.sub 3) ⟨d, Function.update (loadFileTable (junk.sub 1) d) i
          ⟨magic, type.code, start, UInt32.ofNat size⟩⟩ dir i (splitPath path).2 = (true, s') ∧
        d' = writeSectors s'.drive start.toNat data size) := by
  unfold writeFile at e
  split_ifs at e with hv
  · refine ⟨hv, ?_⟩
    dsimp only at e
    cases hn : fileExists (junk.sub 0) d path with
    | true =>
      rw [hn, Bool.not_true, Bool.not_false, if_pos rfl] at e
      refine .inl ⟨rfl, ?_⟩
      split at e
      · cases e
      · rename_i i hi
        split_ifs at e with hf
        · obtain ⟨h₁, h₂⟩ := Prod.mk.inj e
          exact ⟨i, _, hi, hf, Prod.ext h₁ rfl, h₂.symm⟩
        · cases e
    | false =>
      rw [hn, Bool.not_false, Bool.not_true, if_neg Bool.false_ne_true] at e
      refine .inr ⟨rfl, ?_⟩
      split at e
      · cases e
      · rename_i start hspace
        split at e
        · cases e
        · rename_i i hslot
          split at e
          · cases e
          · rename_i dir hdir
            split_ifs at e with ha
            · exact ⟨start, i, dir, _, hspace, hslot, hdir, Prod.ext ha rfl,
                (congrArg Prod.snd e).symm⟩
            · cases e
  · cases e

theorem deleteFile_false (h : deleteFile junk d path = some (false, d')) : d' = d := by
  unfold deleteFile at h
  split_ifs at h
  · dsimp only at h
    split at h
    · exact (congrArg Prod.snd (Option.some.inj h)).symm
    · exact unlinkEntry_false h
  · exact (congrArg Prod.snd (Option.some.inj h)).symm

theorem deleteDirectory_false {fuel : ℕ} (h : deleteDirectory fuel junk d path = some (false, d')) :
    d' = d := by
  unfold deleteDirectory at h
  split_ifs at h
  · dsimp only at h
    split at h
    · exact (congrArg Prod.snd (Option.some.inj h)).symm
    · split_ifs at h
      · obtain ⟨t, -, h⟩ := Option.bind_eq_some_iff.mp h
        exact unlinkEntry_false h
      · exact (congrArg Prod.snd (Option.some.inj h)).symm
  · exact (congrArg Prod.snd (Option.some.inj h)).symm

theorem moveFile_false (h : moveFile junk d path newPath = some (false, d')) : d' = d := by
  unfold moveFile at h
  split_ifs at h
  · dsimp only at h
    split at h
    · obtain ⟨r, -, h⟩ := Option.map_eq_some_iff.mp h
      exact absurd (congrArg Prod.fst h) (by simp)
    · exact (congrArg Prod.snd (Option.some.inj h)).symm
  · exact (congrArg Prod.snd (Option.some.inj h)).symm

/-- **A failed operation leaves the drive as it was**, whatever the drive holds. -/
theorem failed_operation_unchanged (junk : Junk) (d : Drive) (path newPath : List UInt8) (data : Buf)
    (type : FileType) (size fuel : ℕ) :
    ((writeFile junk d path data type size).1 = false →
        (writeFile junk d path data type size).2 = d) ∧
      ((createDirectory junk d path).1 = false → (createDirectory junk d path).2 = d) ∧
      (∀ d', deleteFile junk d path = some (false, d') → d' = d) ∧
      (∀ d', deleteDirectory fuel junk d path = some (false, d') → d' = d) ∧
      ∀ d', moveFile junk d path newPath = some (false, d') → d' = d :=
  ⟨writeFile_false, writeFile_false, fun _ => deleteFile_false, fun _ => deleteDirectory_false,
    fun _ => moveFile_false⟩

/-- A drive with an empty root and one sector for data. -/
def smallDrive : Drive := saveFileTable ⟨fun _ => 0, 643⟩ rootTable

/-- The file has space, but the root has none for its record: the failure is in the last step. -/
theorem failed_operation_no_space :
    findSpaceForFile smallDrive (loadFileTable (fun _ _ => 0) smallDrive) 3 = some 641 ∧
      (writeFile (fun _ _ => 0) smallDrive [47, 97] (fun _ => 7) .file 3).1 = false ∧
      (writeFile (fun _ _ => 0) smallDrive [47, 97] (fun _ => 7) .file 3).2 = smallDrive := by
  have hfail : (writeFile (fun _ _ => 0) smallDrive [47, 97] (fun _ => 7) .file 3).1 = false := by
    decide +kernel
  exact ⟨by decide +kernel, hfail,
    (failed_operation_unchanged (fun _ _ => 0) smallDrive [47, 97] [] (fun _ => 7) .file 3 0).1 hfail⟩

end EitanOS
