import EitanOS.Process.Loader

/-!
# Stores behind the end of a block

`remove_file_from_dir` reads a directory into a block for its whole entries, and copies what it keeps
into a block for one entry less. A directory whose size is no number of entries, and one that does not
list the entry to be removed, as `/` does not list itself, do not fit.

* `Steady`: code that stores nothing behind a block and leaves the drive alone, with one rule for each
  way to build it. `resolvePath_value`, `deleteDirectoryEntriesRecursive_value`: what such code returns
  is what the functions on the drive return.
* `RemovesInside`: the removals that fit. **`deleteFile_dry`**, **`deleteDirectory_dry`**,
  **`moveFile_dry`**: a call whose removal fits stores nothing behind a block.
-/

namespace EitanOS

open Prog Bytes

/-- Nothing was stored behind a block. -/
def Unspilled (s : Kernel) : Prop := s.spilled = false

/-- The same, with `d` on the drive. -/
def Dry (d : Drive) (s : Kernel) : Prop := s.drive = d ∧ Unspilled s

/-- The code stores nothing behind a block and leaves the drive alone. -/
def Steady {α : Type} (m : Sys α) : Prop := ∀ d, Triple Unspilled (Dry d) m fun _ => Dry d

section Rules

variable {α β : Type} {m : Sys α} {f : α → Sys β} {d : Drive}

theorem Steady.bind (hm : Steady m) (hf : ∀ a, Steady (f a)) : Steady (m >>= f) := fun d =>
  (hm d).bind fun a => hf a d

theorem steady_pure (a : α) : Steady (pure a) := fun _ => Triple.ret fun _ hs => hs

theorem steady_failure : Steady (failure : Sys α) := fun _ => Triple.stop fun _ hs => hs.2

theorem steady_get {f : Kernel → Sys β} (h : ∀ s, Steady (f s)) : Steady (get >>= f) := fun d =>
  Triple.get fun s => (h s d).pre fun _ hs => hs.2

theorem dry_get {f : Kernel → Sys β} {Q : β → Kernel → Prop}
    (h : ∀ s, s.drive = d → Triple Unspilled (Dry d) (f s) Q) : Triple Unspilled (Dry d) (get >>= f) Q :=
  Triple.get fun s => Triple.pre (P := fun s' => s.drive = d ∧ Dry d s') (Triple.assume (h s))
    fun _ hs => ⟨hs.1 ▸ hs.2.1, hs.2⟩

theorem steady_modify {g : Kernel → Kernel}
    (h : ∀ s, (g s).drive = s.drive ∧ (g s).spilled = s.spilled) : Steady (modify g) := fun _ =>
  Triple.modify fun s hs => ⟨(h s).1.trans hs.1, (h s).2.trans hs.2⟩

theorem Steady.ite {c : Prop} [Decidable c] {m m' : Sys α} (h : Steady m) (h' : Steady m') :
    Steady (if c then m else m') := fun d => Triple.ite (fun _ => h d) fun _ => h' d

theorem Steady.unspilled (h : Steady m) : Triple Unspilled Unspilled m fun _ => Unspilled :=
  fun s hs => ((h s.drive).post fun _ _ hs => hs.2) s ⟨rfl, hs⟩

theorem malloc_steady (n : ℕ) : Steady (malloc n) := fun _ =>
  malloc_rule (fun _ hs => hs.2) fun _ _ _ _ hs _ _ => hs

theorem malloc_zero : Triple Unspilled (Dry d) (malloc 0) fun p s => p = 0 ∧ Dry d s := by
  refine malloc_rule (fun _ hs => hs.2) fun s o h p hs _ e => ⟨?_, hs⟩
  obtain ⟨-, rfl⟩ : ⟨s.view, s.freeList o⟩ = h ∧ 0 = p := by simpa [mallocInternal] using e
  rfl

theorem mallocKernel_steady (n : ℕ) : Steady (mallocKernel n) := fun _ =>
  mallocFrom_rule (fun _ hs => hs.2) fun _ _ _ hs _ => hs

theorem free_steady (p : ℕ) : Steady (free p) := fun _ =>
  free_rule (fun _ hs => hs.2) fun _ _ _ hs _ _ => hs

theorem freeKernel_steady (p : ℕ) : Steady (freeKernel p) := fun _ =>
  freeTo_rule (fun _ hs => hs.2) fun _ _ hs _ => hs

theorem access_steady (p : ℕ) (c : Prop) [Decidable c] : Steady (access p c) :=
  steady_failure.ite (steady_pure ())

theorem setSpace_steady (sp : ℕ) : Steady (setSpace sp) := steady_modify fun _ => ⟨rfl, rfl⟩

end Rules

namespace Sys

variable {d d' : Drive} {t : FileTable} {junk : Junk} {path : List UInt8}

/-! ## The table and paths -/

theorem freeFileTable_steady : Steady freeFileTable :=
  steady_get fun _ => (free_steady _).bind fun _ => steady_modify fun _ => ⟨rfl, rfl⟩

theorem loadFileTable_dry :
    Triple Unspilled (Dry d) (loadFileTable junk) fun t s =>
      t = EitanOS.loadFileTable junk d ∧ Dry d s := by
  refine dry_get fun s₀ hd => ?_
  refine Triple.bind (freeFileTable_steady.ite (steady_pure ()) d) fun _ => ?_
  refine (malloc_steady 10240 d).bind fun ptr => ?_
  refine Triple.bind (R := fun _ => Dry d) (Triple.modify fun _ hs => hs) fun _ => ?_
  exact (access_steady ptr True d).bind fun _ => Triple.ret fun _ hs => ⟨by rw [hd], hs⟩

theorem loadFileTable_steady : Steady (loadFileTable junk) := fun _ =>
  loadFileTable_dry.post fun _ _ hs => hs.2

theorem strSplit_dry {str : List UInt8} {delim : UInt8} :
    Triple Unspilled (Dry d) (strSplit str delim) fun parts s =>
      parts = EitanOS.strSplit str delim ∧ Dry d s := by
  refine (malloc_steady _ d).bind fun tokens => ?_
  refine Triple.bind (Triple.forM fun part _ => ?_) fun _ => Triple.ret fun _ hs => ⟨rfl, hs⟩
  exact ((malloc_steady _).bind fun token => (access_steady tokens True).bind fun _ =>
    access_steady token True) d

theorem resolveLoop_value {current : ℕ} {parts : List (List UInt8)} :
    Triple Unspilled (Dry d) (resolveLoop d' t junk current parts) fun r s =>
      r = EitanOS.resolveLoop d' t junk current parts ∧ Dry d s := by
  induction parts generalizing junk current with
  | nil => exact Triple.ret fun _ hs => ⟨rfl, hs⟩
  | cons part parts ih =>
    rw [resolveLoop, EitanOS.resolveLoop]
    dsimp only
    refine Triple.ite (fun h => ?_) fun h => ?_
    · rw [if_pos h]
      exact Triple.ret fun _ hs => ⟨rfl, hs⟩
    · rw [if_neg h]
      refine (malloc_steady _ d).bind fun dirEntries => (access_steady _ _ d).bind fun _ => ?_
      refine (free_steady _ d).bind fun _ => ?_
      cases (List.range ((t current).size.toNat / 64)).find? _ with
      | none => exact Triple.ret fun _ hs => ⟨rfl, hs⟩
      | some j => exact ih

/-- **What `resolve_path` returns** is what it returns on the drive. -/
theorem resolvePath_value :
    Triple Unspilled (Dry d) (resolvePath junk t path) fun r s =>
      r = EitanOS.resolvePath junk d t path ∧ Dry d s := by
  unfold resolvePath EitanOS.resolvePath
  generalize findRoot t = root
  refine Triple.ite (fun h => ?_) fun h => ?_
  · rw [if_pos h]
    refine dry_get fun s₀ hd => strSplit_dry.bind fun parts => Triple.assume fun hparts => ?_
    rw [hparts, hd]
    cases root with
    | none => exact Triple.ret fun _ hs => ⟨rfl, hs⟩
    | some root => exact resolveLoop_value
  · rw [if_neg h]
    exact Triple.ret fun _ hs => ⟨rfl, hs⟩

theorem resolvePath_steady : Steady (resolvePath junk t path) := fun _ =>
  resolvePath_value.post fun _ _ hs => hs.2

theorem splitPath_steady : Steady (splitPath path) :=
  (malloc_steady _).bind fun _ => (malloc_steady _).bind fun _ => (access_steady _ _).bind fun _ =>
    (access_steady _ _).bind fun _ => steady_pure _

/-! ## Reading -/

theorem lookup_steady : Steady (lookup junk path) := by
  refine Steady.ite (loadFileTable_steady.bind fun t => resolvePath_steady.bind fun i => ?_) (steady_pure _)
  have hnone : Steady (do freeFileTable; return (none : Option FileEntry)) :=
    freeFileTable_steady.bind fun _ => steady_pure _
  cases i with
  | none => exact hnone
  | some i => exact (steady_pure _).ite hnone

theorem readFile_steady {dataOut : ℕ} : Steady (readFile junk path dataOut) := by
  refine steady_get fun s => lookup_steady.bind fun e => ?_
  cases e with
  | none => exact steady_pure _
  | some e => exact (access_steady _ _).bind fun _ => freeFileTable_steady.bind fun _ => steady_pure _

theorem readFileMetadata_steady : Steady (readFileMetadata junk path) := by
  refine lookup_steady.bind fun e => ?_
  cases e with
  | none => exact steady_pure _
  | some e => exact splitPath_steady.bind fun _ => freeFileTable_steady.bind fun _ => steady_pure _

theorem fileExists_steady : Steady (fileExists junk path) := by
  refine lookup_steady.bind fun e => ?_
  cases e with
  | none => exact steady_pure _
  | some e => exact freeFileTable_steady.bind fun _ => steady_pure _

theorem listDir_steady : Steady (listDir junk path) := by
  refine Steady.ite (fileExists_steady.bind fun found => ?_) (steady_pure _)
  refine Steady.ite (readFileMetadata_steady.bind fun e => ?_) (steady_pure _)
  cases e with
  | none => exact steady_pure _
  | some e =>
    refine Steady.ite (steady_pure _) ((malloc_steady _).bind fun entries => ?_)
    refine readFile_steady.bind fun r => ?_
    cases r with
    | none => exact (free_steady _).bind fun _ => steady_pure _
    | some r =>
      exact (malloc_steady _).bind fun _ => loadFileTable_steady.bind fun _ =>
        (access_steady _ _).bind fun _ => (access_steady _ _).bind fun _ =>
          freeFileTable_steady.bind fun _ => steady_pure _

/-! ## Programs -/

theorem strConcatsLoop_steady {result length : ℕ} {strs : List String} :
    Steady (strConcatsLoop result length strs) := by
  induction strs generalizing result length with
  | nil => exact steady_pure _
  | cons str strs ih =>
    exact (access_steady _ _).bind fun _ => (malloc_steady _).bind fun _ => (free_steady _).bind fun _ => ih

theorem logError_steady {msg : String} : Steady (logError msg) := by
  refine Steady.bind ?_ fun p => (access_steady p True).bind fun _ => free_steady p
  exact (malloc_steady _).bind fun _ => (access_steady _ _).bind fun _ => strConcatsLoop_steady

theorem loadSegments_steady {file : Buf} {segment : ℕ → Bool} {l : List ℕ} :
    Steady (loadSegments file segment l) := by
  induction l with
  | nil => exact steady_pure _
  | cons i l ih =>
    rw [loadSegments]
    refine ih.ite (Steady.ite ?_ (ih.ite steady_failure))
    exact logError_steady.bind fun _ => (setSpace_steady 0).bind fun _ => steady_pure _

theorem programLoaderLoadElf64_steady {file : Buf} {paging : Paging} :
    Steady (programLoaderLoadElf64 file paging) := by
  unfold programLoaderLoadElf64
  cases checkFileElf64 file with
  | some msg => exact logError_steady.bind fun _ => steady_pure _
  | none =>
    refine Steady.ite ?_ (logError_steady.bind fun _ => steady_pure _)
    refine Steady.bind (steady_modify fun _ => ⟨rfl, rfl⟩) fun _ => ?_
    refine loadSegments_steady.bind fun success => Steady.ite ?_ (steady_pure _)
    have hheap : Steady (allocatorHeapInit paging.heap) :=
      Steady.ite (steady_modify fun _ => ⟨rfl, rfl⟩) (steady_pure ())
    refine hheap.bind fun _ => (setSpace_steady 0).bind fun _ => Steady.bind ?_ fun _ => steady_pure _
    exact (malloc_steady 216).bind fun _ => (access_steady _ _).bind fun _ =>
      steady_modify fun _ => ⟨rfl, rfl⟩

theorem runProgram_steady {paging : Paging} : Steady (runProgram junk path paging) := by
  have hload : Steady (loadProgram junk path paging) := by
    refine readFileMetadata_steady.bind fun e => ?_
    cases e with
    | none => exact steady_pure _
    | some e =>
      refine (malloc_steady _).bind fun data => readFile_steady.bind fun r => ?_
      cases r with
      | none => exact steady_pure _
      | some file =>
        exact (access_steady _ _).bind fun _ => programLoaderLoadElf64_steady.bind fun _ =>
          (free_steady _).bind fun _ => steady_pure _
  refine Steady.ite ?_ steady_failure
  refine (mallocKernel_steady _).bind fun copy => (access_steady _ _).bind fun _ => ?_
  refine (setSpace_steady 0).bind fun _ => hload.bind fun _ => (freeKernel_steady copy).bind fun _ => ?_
  exact steady_get fun s => (setSpace_steady s.currentPid).bind fun _ => steady_pure _

/-! ## Editing -/

theorem setDrive_unspilled : Triple Unspilled Unspilled (setDrive d') fun _ => Unspilled :=
  Triple.modify fun _ hs => hs

theorem modifyDrive_unspilled {g : Kernel → Drive} :
    Triple Unspilled Unspilled (modify fun s => { s with drive := g s }) fun _ => Unspilled :=
  Triple.modify fun _ hs => hs

theorem addFileToDir_unspilled {dir i : ℕ} {name : List UInt8} :
    Triple Unspilled Unspilled (addFileToDir junk t dir i name) fun _ => Unspilled := by
  refine Triple.get fun s₀ => Triple.pre (P := Unspilled) ?_ fun _ hs => hs.2
  refine (malloc_steady _).unspilled.bind fun entries => (access_steady entries _).unspilled.bind fun _ => ?_
  generalize EitanOS.addFileToDir junk ⟨s₀.drive, t⟩ dir i name = r
  obtain ⟨success, fs⟩ := r
  exact setDrive_unspilled.bind fun _ => (free_steady entries).unspilled.bind fun _ =>
    Triple.ret fun _ hs => hs

theorem freeTable_unspilled {b : Bool} :
    Triple Unspilled Unspilled (do freeFileTable; return b) fun _ => Unspilled :=
  freeFileTable_steady.unspilled.bind fun _ => Triple.ret fun _ hs => hs

theorem freeParts_unspilled {parts : ℕ × ℕ} {b : Bool} : Triple Unspilled Unspilled
    (do free parts.1; free parts.2; freeFileTable; return b) fun _ => Unspilled :=
  (free_steady _).unspilled.bind fun _ => (free_steady _).unspilled.bind fun _ => freeTable_unspilled

theorem writeFile_unspilled {data : Buf} {type : FileType} {size : ℕ} :
    Triple Unspilled Unspilled (writeFile junk path data type size) fun _ => Unspilled := by
  refine Triple.ite (fun _ => ?_) fun _ => Triple.ret fun _ hs => hs
  refine fileExists_steady.unspilled.bind fun found => loadFileTable_steady.unspilled.bind fun t => ?_
  refine Triple.get fun s₀ => Triple.pre (P := Unspilled) ?_ fun _ hs => hs.2
  refine Triple.ite (fun _ => ?_) fun _ => ?_
  · refine resolvePath_steady.unspilled.bind fun i => ?_
    cases i with
    | none => exact freeTable_unspilled
    | some i =>
      refine Triple.ite (fun _ => ?_) fun _ => freeTable_unspilled
      generalize editFile ⟨s₀.drive, t⟩ i data size = r
      obtain ⟨success, fs⟩ := r
      exact setDrive_unspilled.bind fun _ => freeTable_unspilled
  · cases findSpaceForFile s₀.drive t size with
    | none => exact freeTable_unspilled
    | some start =>
      cases findFileEntrySlot t with
      | none => exact freeTable_unspilled
      | some i =>
        refine splitPath_steady.unspilled.bind fun parts => resolvePath_steady.unspilled.bind fun dir => ?_
        cases dir with
        | none =>
          exact (free_steady _).unspilled.bind fun _ => (free_steady _).unspilled.bind fun _ => freeTable_unspilled
        | some dir =>
          refine addFileToDir_unspilled.bind fun r => (free_steady _).unspilled.bind fun _ => ?_
          refine (free_steady _).unspilled.bind fun _ => Triple.bind ?_ fun _ => freeTable_unspilled
          exact Triple.ite (fun _ => modifyDrive_unspilled) fun _ => Triple.ret fun _ hs => hs

/-! ## Removing -/

/-- The entries of directory `dir` without entry `i` fit where `remove_file_from_dir` puts them: the
size of the directory is that of its entries, and if there are two or more, one of them is for `i`. -/
def RemovesInside (junk : Junk) (s : Fs) (dir i : ℕ) : Prop :=
  (s.table dir).size.toNat % 64 = 0 ∧ (2 ≤ (s.table dir).size.toNat / 64 →
    ∃ j < (s.table dir).size.toNat / 64, dirIndex (loadEntries (junk.sub 0) s dir) j = i)

theorem fill_dry {block size : ℕ} (h : size ≤ block) :
    Triple Unspilled (Dry d) (fill block size) fun _ => Dry d := by
  refine Triple.modify fun s hs => ⟨hs.1, ?_⟩
  have hs' : s.spilled = false := hs.2
  show (s.spilled || decide (block < size)) = false
  rw [hs', decide_eq_false (by omega)]
  rfl

theorem length_kept_lt {entries : Buf} {i j n : ℕ} (hj : j < n) (h : dirIndex entries j = i) :
    ((List.range n).filter fun j => dirIndex entries j ≠ i).length < n := by
  have hlt := List.length_filter_lt_length_iff_exists
    (p := fun j => decide (dirIndex entries j ≠ i)) (l := List.range n)
  rw [List.length_range] at hlt
  exact hlt.2 ⟨j, List.mem_range.2 hj, by simp [h]⟩

/-- **A removal that fits stores nothing behind a block.** With one entry that stays, it stops at the
null pointer before. -/
theorem removeFileFromDir_dry {dir i : ℕ} (h : RemovesInside junk ⟨d, t⟩ dir i) :
    Triple Unspilled (Dry d) (removeFileFromDir junk t dir i) fun _ => Unspilled := by
  obtain ⟨hmod, hdrop⟩ := h
  dsimp only at hmod hdrop
  have hsize := (t dir).size.toNat_lt
  refine dry_get fun s₀ hd => (malloc_steady _ d).bind fun oldEntries => ?_
  refine (access_steady _ _ d).bind fun _ => (fill_dry ?_).bind fun _ => ?_
  · unfold bytesRead
    split_ifs
    · omega
    · omega
  dsimp only
  rw [hd]
  generalize he : loadEntries (junk.sub 0) ⟨d, t⟩ dir = entries at hdrop ⊢
  generalize hn : (t dir).size.toNat / 64 = n at hdrop ⊢
  have hnew : 0 < n → (n + (2 ^ 64 - 1)) % 2 ^ 64 * 64 % 2 ^ 64 = (n - 1) * 64 := by omega
  -- where nothing is dropped, the second block is null
  refine Triple.bind (R := fun p s => (n = 1 → p = 0) ∧ Dry d s) ?_ fun newEntries => ?_
  · by_cases h1 : n = 1
    · have h0 : (n + (2 ^ 64 - 1)) % 2 ^ 64 * 64 % 2 ^ 64 = 0 := by omega
      rw [h0]
      exact malloc_zero.post fun _ _ hs => ⟨fun _ => hs.1, hs.2⟩
    · exact (malloc_steady _ d).post fun _ _ hs => ⟨fun h => absurd h h1, hs⟩
  refine Triple.assume fun hnull => (access_steady _ _ d).bind fun _ => ?_
  refine Triple.bind (R := fun _ s => ((∃ j < n, dirIndex entries j ≠ i) → newEntries ≠ 0) ∧ Dry d s)
    ?_ fun _ => Triple.assume fun hkept => ?_
  · refine Triple.ite (fun _ => Triple.stop fun _ hs => hs.2) fun h => Triple.ret fun _ hs => ⟨?_, hs⟩
    exact fun hc h0 => h ⟨h0, hc⟩
  refine (fill_dry ?_).bind fun _ => ?_
  · by_cases hj : ∃ j < n, dirIndex entries j = i
    · obtain ⟨j, hj, hji⟩ := hj
      have hlt := length_kept_lt hj hji
      rw [hnew (by omega)]
      omega
    · have h2 : ¬ 2 ≤ n := fun h2 => hj (hdrop h2)
      have h1 : n ≠ 1 := by
        rintro rfl
        exact hkept ⟨0, by omega, fun e => hj ⟨0, by omega, e⟩⟩ (hnull rfl)
      obtain rfl : n = 0 := by omega
      exact Nat.zero_le _
  · generalize editFile ⟨d, t⟩ dir _ _ = r
    obtain ⟨success, fs⟩ := r
    refine Triple.pre (P := Unspilled) ?_ fun _ hs => hs.2
    exact (access_steady _ _).unspilled.bind fun _ => setDrive_unspilled.bind fun _ =>
      (free_steady _).unspilled.bind fun _ => (free_steady _).unspilled.bind fun _ =>
        Triple.ret fun _ hs => hs

theorem deleteDirectoryEntriesRecursive_value {depth dir : ℕ} :
    Triple Unspilled (Dry d) (deleteDirectoryEntriesRecursive d' depth junk t dir) fun r s =>
      EitanOS.deleteDirectoryEntriesRecursive d' depth junk t dir = some r ∧ Dry d s := by
  induction depth generalizing junk t dir with
  | zero => exact Triple.stop fun _ hs => hs.2
  | succ depth ih =>
    rw [deleteDirectoryEntriesRecursive, EitanOS.deleteDirectoryEntriesRecursive]
    dsimp only
    refine Triple.ite (fun h => ?_) fun h => ?_
    · rw [if_pos h]
      exact Triple.ret fun _ hs => ⟨rfl, hs⟩
    · rw [if_neg h]
      refine (malloc_steady _ d).bind fun block => (access_steady _ _ d).bind fun _ => ?_
      refine Triple.bind (Triple.foldlM_value fun t j => ?_) fun r =>
        Triple.assume fun hr => (free_steady block d).bind fun _ => Triple.ret fun _ hs => ⟨hr, hs⟩
      split_ifs with hl hdir
      · refine ih.bind fun t' => Triple.assume fun ht => Triple.ret fun _ hs => ⟨?_, hs⟩
        rw [ht]
        rfl
      · exact Triple.ret fun _ hs => ⟨rfl, hs⟩
      · exact Triple.ret fun _ hs => ⟨rfl, hs⟩

/-- **`filesystem_delete_file`** stores nothing behind a block if its removal fits. -/
theorem deleteFile_dry (h : ∀ i dir,
      EitanOS.resolvePath (junk.sub 1) d (EitanOS.loadFileTable (junk.sub 0) d) path = some i →
      EitanOS.resolvePath (junk.sub 2) d (EitanOS.loadFileTable (junk.sub 0) d)
        (EitanOS.splitPath path).1 = some dir →
      RemovesInside (junk.sub 3) ⟨d, EitanOS.loadFileTable (junk.sub 0) d⟩ dir i) :
    Triple Unspilled (Dry d) (deleteFile junk path) fun _ => Unspilled := by
  refine Triple.ite (fun _ => ?_) fun _ => Triple.ret fun _ hs => hs.2
  refine loadFileTable_dry.bind fun t => Triple.assume fun ht => ?_
  rw [← ht] at h
  refine resolvePath_value.bind fun i => Triple.assume fun hi => ?_
  cases i with
  | none => exact freeTable_unspilled.pre fun _ hs => hs.2
  | some i =>
    refine (splitPath_steady d).bind fun parts => resolvePath_value.bind fun dir => ?_
    refine Triple.assume fun hdir => ?_
    cases dir with
    | none => exact freeParts_unspilled.pre fun _ hs => hs.2
    | some dir =>
      refine (removeFileFromDir_dry (h i dir hi.symm hdir.symm)).bind fun r => ?_
      exact Triple.ite (fun _ => modifyDrive_unspilled.bind fun _ => freeTable_unspilled) fun _ => freeParts_unspilled

/-- **`filesystem_delete_directory`** looks for the parent in the table without what is below. -/
theorem deleteDirectory_dry {depth : ℕ} (h : ∀ i t dir,
      EitanOS.resolvePath (junk.sub 1) d (EitanOS.loadFileTable (junk.sub 0) d) path = some i →
      EitanOS.deleteDirectoryEntriesRecursive d depth (junk.sub 2)
        (EitanOS.loadFileTable (junk.sub 0) d) i = some t →
      EitanOS.resolvePath (junk.sub 3) d t (EitanOS.splitPath path).1 = some dir →
      RemovesInside (junk.sub 4) ⟨d, t⟩ dir i) :
    Triple Unspilled (Dry d) (deleteDirectory depth junk path) fun _ => Unspilled := by
  refine Triple.ite (fun _ => ?_) fun _ => Triple.ret fun _ hs => hs.2
  refine loadFileTable_dry.bind fun t => Triple.assume fun ht => ?_
  rw [← ht] at h
  refine dry_get fun s₀ hd => resolvePath_value.bind fun i => Triple.assume fun hi => ?_
  cases i with
  | none => exact freeTable_unspilled.pre fun _ hs => hs.2
  | some i =>
    refine Triple.ite (fun _ => ?_) fun _ => freeTable_unspilled.pre fun _ hs => hs.2
    rw [hd]
    refine deleteDirectoryEntriesRecursive_value.bind fun t' => Triple.assume fun ht' => ?_
    refine (splitPath_steady d).bind fun parts => resolvePath_value.bind fun dir => ?_
    refine Triple.assume fun hdir => ?_
    cases dir with
    | none => exact freeParts_unspilled.pre fun _ hs => hs.2
    | some dir =>
      refine (removeFileFromDir_dry (h i t' dir hi.symm ht' hdir.symm)).bind fun r => ?_
      refine Triple.bind (R := fun _ => Unspilled) ?_ fun _ => freeParts_unspilled
      exact Triple.ite (fun _ => modifyDrive_unspilled) fun _ => Triple.ret fun _ hs => hs

/-- **`filesystem_move_file`**: what it adds to the other directory always fits. -/
theorem moveFile_dry {newPath : List UInt8} (h : ∀ i dir,
      EitanOS.resolvePath (junk.sub 1) d (EitanOS.loadFileTable (junk.sub 0) d) path = some i →
      EitanOS.resolvePath (junk.sub 2) d (EitanOS.loadFileTable (junk.sub 0) d)
        (EitanOS.splitPath path).1 = some dir →
      RemovesInside (junk.sub 4) ⟨d, EitanOS.loadFileTable (junk.sub 0) d⟩ dir i) :
    Triple Unspilled (Dry d) (moveFile junk path newPath) fun _ => Unspilled := by
  have hend {parts newParts : ℕ × ℕ} {b : Bool} : Triple Unspilled Unspilled
      (do moveEnd parts newParts; return b) fun _ => Unspilled :=
    Triple.bind ((free_steady _).unspilled.bind fun _ => (free_steady _).unspilled.bind fun _ =>
      (free_steady _).unspilled.bind fun _ => (free_steady _).unspilled.bind fun _ =>
        freeFileTable_steady.unspilled) fun _ => Triple.ret fun _ hs => hs
  refine Triple.ite (fun _ => ?_) fun _ => Triple.ret fun _ hs => hs.2
  refine (splitPath_steady d).bind fun parts => (splitPath_steady d).bind fun newParts => ?_
  refine loadFileTable_dry.bind fun t => Triple.assume fun ht => ?_
  rw [← ht] at h
  refine resolvePath_value.bind fun i => Triple.assume fun hi => ?_
  cases i with
  | none => exact hend.pre fun _ hs => hs.2
  | some i =>
    refine resolvePath_value.bind fun dir => Triple.assume fun hdir => ?_
    cases dir with
    | none => exact hend.pre fun _ hs => hs.2
    | some dir =>
      refine resolvePath_value.bind fun newDir => Triple.assume fun _ => ?_
      cases newDir with
      | none => exact hend.pre fun _ hs => hs.2
      | some newDir =>
        refine (removeFileFromDir_dry (h i dir hi.symm hdir.symm)).bind fun r => ?_
        exact addFileToDir_unspilled.bind fun _ => hend

end Sys

end EitanOS
