import EitanOS.Disk.DeleteTree
import EitanOS.Disk.Listing
import EitanOS.Disk.Move
import EitanOS.Lib.FileMap

/-!
# What is on a drive

A drive in order stands for a map from paths to folders and files. Each operation changes the drive as the
operation of that map it is named after changes the map.

* `filesOf d r`: the map that a drive with root entry `r` stands for. `Shows d r M`: the drive is in order, has
  no file that cannot be read whole, and stands for `M`.
* **`Shows.write`**, **`Shows.mkdir`**, **`Shows.remove`**, **`Shows.removeTree`**, **`Shows.move`**: the map
  after a call that returns true.
* **`Shows.boot`**: `filesystem_init` on a drive with a root keeps the map.
-/

namespace EitanOS

open Bytes Names FileMap

variable {d d' : Drive} {r i j q size : ℕ} {cs : List (List UInt8)} {path newPath : List UInt8}
  {M : Files (List UInt8) (List UInt8)} {junk : Junk}

/-- What an entry of the table stands for. -/
def nodeAt (d : Drive) (i : ℕ) : Node (List UInt8) :=
  if (diskTable d i).IsFile then
    .file ((List.range (diskTable d i).size.toNat).map (content d (diskTable d i)))
  else .folder

/-- **The files on a drive.** -/
def filesOf (d : Drive) (r : ℕ) : Files (List UInt8) (List UInt8) := fun cs =>
  ((dirTree d (diskTable d) r).walk r cs).map (nodeAt d)

/-- An entry is a folder, or a file that is read whole. -/
def PlainAt (d : Drive) (i : ℕ) : Prop :=
  IsFolder (diskTable d) i ∨ (diskTable d i).IsFile ∧ (diskTable d i).size.toNat ≤ 255 * 512

/-- The drive is in order, and stands for `M`. -/
structure Shows (d : Drive) (r : ℕ) (M : Files (List UInt8) (List UInt8)) : Prop where
  sound : DiskSound d r
  plain : ∀ i < 640, (diskTable d i).Live → PlainAt d i
  files_eq : filesOf d r = M

/-- Entry `j` stands for the same thing on both drives. -/
def SameNode (d d' : Drive) (j : ℕ) : Prop :=
  (diskTable d' j).type = (diskTable d j).type ∧ ((diskTable d j).IsFile → SameFile d d' j)

/-! ## Nodes -/

theorem nodeAt_folder (h : IsFolder (diskTable d) i) : nodeAt d i = .folder := if_neg h.not_isFile

theorem SameNode.nodeAt_eq (h : SameNode d d' j) : nodeAt d' j = nodeAt d j := by
  have hiff : (diskTable d' j).IsFile ↔ (diskTable d j).IsFile := by rw [FileEntry.IsFile, FileEntry.IsFile, h.1]
  unfold nodeAt
  by_cases hf : (diskTable d j).IsFile
  · obtain ⟨-, -, hsize, hc⟩ := h.2 hf
    rw [if_pos hf, if_pos (hiff.2 hf), hsize]
    refine congrArg Node.file (List.map_congr_left fun k hk => ?_)
    exact hc k (List.mem_range.1 hk)
  · rw [if_neg hf, if_neg fun hf' => hf (hiff.1 hf')]

theorem SameNode.plainAt (h : SameNode d d' j) (hl : (diskTable d' j).Live) (hp : PlainAt d j) :
    PlainAt d' j := by
  rcases hp with ⟨hlt, -, ht⟩ | ⟨hf, hs⟩
  · refine .inl ⟨hlt, hl, ?_⟩
    rwa [FileEntry.IsDir, FileEntry.IsRoot, h.1]
  · refine .inr ⟨h.1.trans hf, ?_⟩
    rwa [(h.2 hf).2.2.1]

/-! ## The map -/

theorem TreeOk.walk_iff (h : TreeOk d (diskTable d) r) : (dirTree d (diskTable d) r).walk r cs = some i ↔
    (dirTree d (diskTable d) r).Path cs i := h.tree.walk_root

namespace Shows

theorem treeOk (h : Shows d r M) : TreeOk d (diskTable d) r := h.sound.treeOk

theorem apply (h : Shows d r M) (cs : List (List UInt8)) :
    M cs = ((dirTree d (diskTable d) r).walk r cs).map (nodeAt d) := by
  rw [← h.files_eq]
  rfl

theorem of_path (h : Shows d r M) (hp : (dirTree d (diskTable d) r).Path cs i) :
    M cs = some (nodeAt d i) := by
  rw [h.apply, h.treeOk.walk_iff.2 hp]
  rfl

theorem ne_none_iff (h : Shows d r M) : M cs ≠ none ↔ ∃ i, (dirTree d (diskTable d) r).Path cs i := by
  rw [h.apply, Ne, Option.map_eq_none_iff, ← Ne, Option.ne_none_iff_exists']
  simp only [h.treeOk.walk_iff]

theorem eq_none_iff (h : Shows d r M) :
    M cs = none ↔ (dirTree d (diskTable d) r).walk r cs = none := by
  rw [h.apply, Option.map_eq_none_iff]

theorem folder_iff (h : Shows d r M) (hp : (dirTree d (diskTable d) r).Path cs i) :
    M cs = some .folder ↔ IsFolder (diskTable d) i := by
  obtain ⟨hlt, hl⟩ := h.treeOk.live_of_path hp
  rw [h.of_path hp, Option.some.injEq]
  constructor
  · intro e
    refine (h.plain i hlt hl).resolve_right fun hf => ?_
    rw [nodeAt, if_pos hf.1] at e
    cases e
  · exact nodeAt_folder

theorem file_iff (h : Shows d r M) (hp : (dirTree d (diskTable d) r).Path cs i) :
    (∃ data, M cs = some (.file data)) ↔ (diskTable d i).IsFile := by
  rw [h.of_path hp]
  constructor
  · rintro ⟨data, e⟩
    by_contra hf
    rw [nodeAt, if_neg hf] at e
    cases e
  · intro hf
    exact ⟨_, by rw [nodeAt, if_pos hf]⟩

theorem resolve_iff (h : Shows d r M) (hv : isValidPath path = true) :
    resolve junk d path = none ↔ M (strSplit path slash) = none := by
  rw [h.treeOk.resolve_walk hv, h.eq_none_iff]

theorem filesOf_apply (h : Shows d r M)
    (hw : (dirTree d' (diskTable d') r).walk r cs = (dirTree d (diskTable d) r).walk r cs)
    (hn : ∀ j, (dirTree d (diskTable d) r).Path cs j → nodeAt d' j = nodeAt d j) : filesOf d' r cs = M cs := by
  rw [h.apply, filesOf, hw]
  cases e : (dirTree d (diskTable d) r).walk r cs with
  | none => rfl
  | some j => exact congrArg some (hn j (h.treeOk.walk_iff.1 e))

end Shows

/-! ## Writing -/

/-- An entry other than `i` is as live as before, and of the same type. -/
def KindsBut (d d' : Drive) (i : ℕ) : Prop :=
  ∀ j < 640, j ≠ i → ((diskTable d' j).Live ↔ (diskTable d j).Live) ∧
    (diskTable d' j).type = (diskTable d j).type

theorem DiskSound.written_kinds (h : DiskSound d r) {data : Buf} (hc : ∀ c ∈ strSplit path slash, c.length < 60)
    (hp : ∀ q, (dirTree d (diskTable d) r).walk r (strSplit (splitPath path).1 slash) = some q →
      IsFolder (diskTable d) q)
    (hs : size ≤ 255 * 512) (e : EitanOS.writeFile junk d path data .file size = (true, d')) :
    ∃ i, Written d d' r i (strSplit path slash) data size ∧ KindsBut d d' i := by
  have hok := h.treeOk
  obtain ⟨i, hw⟩ := h.writeFile hc hp hs e
  have ht : ∀ j < 640, loadFileTable (junk.sub 1) d j = diskTable d j := fun j hj =>
    hok.loadFileTable_eq _ hj
  refine ⟨i, hw, ?_⟩
  rcases hok.writeFile_cases (.of_ne (by decide)) (.of_le (by omega)) e with
    ⟨i', s', hi, hf, he, rfl⟩ | ⟨i', q, start, -, -, hnone, -, hadded, -⟩
  · have hlt := (hok.live_of_path (hok.walk_iff.1 hi)).1
    have hedit := (editFile_edited (hok.load ht).1.tableOk hlt (.of_le (by omega)) he).1
    intro j hj _
    rw [hedit.saved j hj, hedit.live_iff, hedit.type_eq]
    dsimp only
    rw [ht j hj]
    exact ⟨Iff.rfl, rfl⟩
  · -- the entry at the path is the one that was added
    have hi : i' = i := by
      by_contra hne
      obtain ⟨hl, -⟩ := hadded.entry_iff hw.lt (Ne.symm hne)
      obtain ⟨cs, hcs⟩ := h.path i hw.lt (hl.1 hw.live)
      have hcs' : cs ≠ strSplit path slash := by
        rintro rfl
        exact absurd (hnone.symm.trans (hok.walk_iff.2 hcs)) (by simp)
      have hold := (hw.elsewhere cs hcs').trans (hok.walk_iff.2 hcs)
      have hnew := hw.sound.treeOk.walk_iff.1 hold
      exact hcs' (hnew.unique hw.sound.treeOk.tree (hw.sound.treeOk.walk_iff.1 hw.here))
    subst hi
    exact fun j hj hji => hadded.entry_iff hj hji

namespace Shows

theorem parent_folder (h : Shows d r M) (hv : isValidPath path = true) (hne : path ≠ [slash])
    (hfit : ParentFits M (strSplit path slash)) :
    strSplit path slash = strSplit (splitPath path).1 slash ++ [(splitPath path).2] ∧
      ∀ q, (dirTree d (diskTable d) r).Path (strSplit (splitPath path).1 slash) q →
        IsFolder (diskTable d) q := by
  obtain ⟨cs, name, hsplit, -, hdir, rfl, -⟩ := validPath_split hv hne
  rw [hdir]
  refine ⟨hsplit, fun q hq => ?_⟩
  obtain ⟨hlt, hl⟩ := h.treeOk.live_of_path hq
  refine (h.plain q hlt hl).resolve_right fun hf => ?_
  obtain ⟨data, hdata⟩ := (h.file_iff hq).2 hf.1
  exact hfit _ _ data hsplit hdata

theorem write_root (h : Shows d r M) {data : Buf} {type : FileType} :
    (writeFile junk d [slash] data type size).1 = false := by
  have hv : isValidPath [slash] = true := by decide
  have hr : resolve junk d [slash] = some r := (h.treeOk.resolve_iff hv).2 .root
  rw [h.treeOk.writeFile_existing hv hr, if_neg h.treeOk.isFolder_root.not_isFile]

theorem parent_of_write (h : Shows d r M) {data : Buf} {type : FileType} (hv : isValidPath path = true)
    (hne : path ≠ [slash]) (hfit : ParentFits M (strSplit path slash)) (hty : type ≠ .rootDirectory)
    (hs : SeeksSpace size) (e : writeFile junk d path data type size = (true, d')) :
    M (strSplit (splitPath path).1 slash) = some .folder ∧ M (strSplit path slash) ≠ some .folder := by
  have hok := h.treeOk
  obtain ⟨hsplit, hparent⟩ := h.parent_folder hv hne hfit
  rcases hok.writeFile_cases (.of_ne hty) hs e with ⟨i, s', hi, hf, -⟩ | ⟨i, q, start, -, -, hnone, hq, -⟩
  · have hp := hok.walk_iff.1 hi
    refine ⟨?_, fun hfolder => ((h.folder_iff hp).1 hfolder).not_isFile hf⟩
    rw [hsplit] at hp
    obtain ⟨q, hq, hfq, -⟩ := hp.last
    exact (h.folder_iff hq).2 (hok.folder_iff.1 hfq)
  · have hp := hok.walk_iff.1 hq
    refine ⟨(h.folder_iff hp).2 (hparent q hp), ?_⟩
    rw [h.eq_none_iff.2 hnone]
    simp

/-- **A change of one entry** is a change of the map at its path. -/
theorem put_entry (h : Shows d r M) (hd : DiskSound d' r) (hkinds : KindsBut d d' i)
    (hsame : ∀ j < 640, j ≠ i → (diskTable d j).Live → SameNode d d' j)
    (hi : (dirTree d' (diskTable d') r).Path cs i) (helse : ∀ cs' ≠ cs,
      (dirTree d' (diskTable d') r).walk r cs' = (dirTree d (diskTable d) r).walk r cs')
    (hplain : PlainAt d' i) : Shows d' r (put M cs (nodeAt d' i)) := by
  refine ⟨hd, fun j hj hl => ?_, funext fun cs' => ?_⟩
  · by_cases hji : j = i
    · exact hji ▸ hplain
    · have hl₀ := (hkinds j hj hji).1.1 hl
      exact (hsame j hj hji hl₀).plainAt hl (h.plain j hj hl₀)
  · by_cases hcs : cs' = cs
    · rw [hcs, put_self, filesOf, hd.treeOk.walk_iff.2 hi, Option.map_some]
    · rw [put_of_ne hcs]
      refine h.filesOf_apply (helse cs' hcs) fun j hj => ?_
      obtain ⟨hlt, hl⟩ := h.treeOk.live_of_path hj
      refine (hsame j hlt ?_ hl).nodeAt_eq
      rintro rfl
      have hj' := hd.treeOk.walk_iff.1 ((helse cs' hcs).trans (h.treeOk.walk_iff.2 hj))
      exact hcs (hj'.unique hd.treeOk.tree hi)

/-- **A file that is written** is there, with its data, and nothing else changes. -/
theorem write (h : Shows d r M) {data : Buf} (hv : isValidPath path = true)
    (hc : ∀ c ∈ strSplit path slash, c.length < 60) (hfit : ParentFits M (strSplit path slash))
    (hs : size ≤ 255 * 512) (e : writeFile junk d path data .file size = (true, d')) :
    M (strSplit (splitPath path).1 slash) = some .folder ∧ M (strSplit path slash) ≠ some .folder ∧
      strSplit path slash = strSplit (splitPath path).1 slash ++ [(splitPath path).2] ∧
      Shows d' r (put M (strSplit path slash) (.file ((List.range size).map data))) := by
  have hok := h.treeOk
  have hne : path ≠ [slash] := by
    rintro rfl
    exact Bool.false_ne_true (h.write_root.symm.trans (congrArg Prod.fst e))
  obtain ⟨hsplit, hparent⟩ := h.parent_folder hv hne hfit
  obtain ⟨i, hw, hkinds⟩ := h.sound.written_kinds hc (fun q hq => hparent q (hok.walk_iff.1 hq)) hs e
  have hsame : ∀ j < 640, j ≠ i → (diskTable d j).Live → SameNode d d' j := by
    intro j hj hji hl
    refine ⟨(hkinds j hj hji).2, fun hf => ?_⟩
    obtain ⟨heq, hbytes⟩ := hw.others j hj hji hl hf
    exact .of_eq hl heq hbytes
  have hnode : nodeAt d' i = .file ((List.range size).map data) := by
    rw [nodeAt, if_pos hw.file, hw.size_eq]
    refine congrArg Node.file (List.map_congr_left fun k hk => ?_)
    exact hw.bytes k (List.mem_range.1 hk)
  obtain ⟨hfolder, hfile⟩ := h.parent_of_write hv hne hfit (by decide) (.of_le (by omega)) e
  refine ⟨hfolder, hfile, hsplit, ?_⟩
  rw [← hnode]
  exact h.put_entry hw.sound hkinds hsame (hw.sound.treeOk.walk_iff.1 hw.here) hw.elsewhere
    (.inr ⟨hw.file, by rwa [hw.size_eq]⟩)

/-! ## Creating a directory -/

/-- **A directory that is created** is there, and nothing else changes. -/
theorem mkdir (h : Shows d r M) (hv : isValidPath path = true)
    (hc : ∀ c ∈ strSplit path slash, c.length < 60) (hfit : ParentFits M (strSplit path slash))
    (hfile : ∀ data, M (strSplit path slash) ≠ some (.file data))
    (e : createDirectory junk d path = (true, d')) :
    M (strSplit (splitPath path).1 slash) = some .folder ∧ M (strSplit path slash) = none ∧
      strSplit path slash = strSplit (splitPath path).1 slash ++ [(splitPath path).2] ∧
      Shows d' r (put M (strSplit path slash) .folder) := by
  have hok := h.treeOk
  have hne : path ≠ [slash] := by
    rintro rfl
    exact Bool.false_ne_true (h.write_root.symm.trans (congrArg Prod.fst e))
  obtain ⟨hsplit, hparent⟩ := h.parent_folder hv hne hfit
  obtain ⟨hfolder, -⟩ := h.parent_of_write hv hne hfit (by decide) (.inl rfl) e
  rcases hok.writeFile_cases (.of_ne (by decide)) (.inl rfl) e with
    ⟨i, s', hi, hf, -⟩ | ⟨i, q, start, -, hname, hnone, hq, hadded, -⟩
  · obtain ⟨data, hdata⟩ := (h.file_iff (hok.walk_iff.1 hi)).2 hf
    exact absurd hdata (hfile data)
  · have hqf := hparent q (hok.walk_iff.1 hq)
    obtain ⟨hok', hpath⟩ := hadded.createsDirectory hok hc hsplit hname hnone hq hqf
    have hself : IsFolder (diskTable d') i := by
      refine ⟨hadded.lt, ?_, .inl ?_⟩ <;> rw [hadded.entry]
    have hsame : ∀ j < 640, j ≠ i → (diskTable d j).Live → SameNode d d' j := by
      intro j hj hji hl
      refine ⟨(hadded.entry_iff hj hji).2, fun hf => hadded.sameFile hj ?_ hl⟩
      rintro rfl
      exact hqf.not_isFile hf
    have hd : DiskSound d' r := ⟨hok', fun j hj hl => by
      by_cases hji : j = i
      · exact ⟨_, (hpath _ _).2 (.inr ⟨rfl, hji⟩)⟩
      · obtain ⟨cs, hcs⟩ := h.sound.path j hj ((hadded.entry_iff hj hji).1.1 hl)
        exact ⟨cs, (hpath _ _).2 (.inl hcs)⟩⟩
    refine ⟨hfolder, h.eq_none_iff.2 hnone, hsplit, ?_⟩
    rw [← nodeAt_folder hself]
    refine h.put_entry hd (fun j hj hji => hadded.entry_iff hj hji) hsame ((hpath _ _).2 (.inr ⟨rfl, rfl⟩))
      (fun cs hcs => Option.ext fun j => ?_) (.inl hself)
    rw [hok'.walk_iff, hok.walk_iff, hpath, or_iff_left fun hj => hcs hj.1]

/-! ## Deleting -/

/-- **What is removed** is gone, and nothing else changes. -/
theorem remove (h : Shows d r M) (hv : isValidPath path = true) (hne : path ≠ [slash])
    (hleaf : ∀ c, M (strSplit path slash ++ [c]) = none) (hi : resolve junk d path = some i) :
    ∃ d', deleteFile junk d path = some (true, d') ∧ Shows d' r (prune M (strSplit path slash)) := by
  have hok := h.treeOk
  have hp := hok.path_of_resolve hv hi
  have hir : i ≠ r := by
    rintro rfl
    exact hne (hok.resolve_root hv hi)
  obtain ⟨q, d', hdel, hun⟩ := h.sound.deleteFile hv hi hir
  have hremovable : Removable d i := by
    obtain ⟨hlt, hl⟩ := hok.live_of_path hp
    refine ⟨fun hr => hir (hok.root_unique i hlt hl hr), fun hf => ?_⟩
    by_contra hentries
    obtain ⟨⟨c, x⟩, hx⟩ := List.exists_mem_of_ne_nil _ hentries
    rw [← TreeOk.entries_eq (r := r) hf] at hx
    exact (h.ne_none_iff.2 ⟨x, hp.snoc (hok.folder_iff.2 hf) hx⟩) (hleaf c)
  have hsame : ∀ j < 640, j ≠ i → (diskTable d j).Live → SameNode d d' j := by
    intro j hj hji hl
    refine ⟨(hun.entry j hj hji).2, fun hf => ?_⟩
    have hjq : j ≠ q := by
      rintro rfl
      exact hun.folder.not_isFile hf
    obtain ⟨heq, hbytes⟩ := hun.others j hj hji hjq hl
    exact .of_eq hl heq hbytes
  refine ⟨d', hdel, hun.sound h.sound hremovable hp, fun j hj hl => ?_, funext fun cs => ?_⟩
  · have hji : j ≠ i := by
      rintro rfl
      exact hun.gone hl
    have hl₀ := (hun.entry j hj hji).1.1 hl
    exact (hsame j hj hji hl₀).plainAt hl (h.plain j hj hl₀)
  · by_cases hcs : strSplit path slash <+: cs
    · have hgone : (dirTree d' (diskTable d') r).walk r cs = none := hun.detaches.walk_below hok.tree hp hcs
      rw [prune_below hcs, filesOf, hgone]
      rfl
    · rw [prune_of_not hcs]
      refine h.filesOf_apply (hun.detaches.walk_other hok.tree hp hcs) fun j hj => ?_
      obtain ⟨hlt, hl⟩ := hok.live_of_path hj
      refine (hsame j hlt ?_ hl).nodeAt_eq
      rintro rfl
      exact hcs (hj.unique hok.tree hp ▸ List.prefix_rfl)

/-- **A directory that is removed** is gone with all that is in it, and nothing else changes. -/
theorem removeTree (h : Shows d r M) (hv : isValidPath path = true) (hi : resolve junk d path = some i)
    (hdir : (diskTable d i).IsDir) :
    ∃ d', (∀ fuel, 640 ≤ fuel → deleteDirectory fuel junk d path = some (true, d')) ∧
      Shows d' r (prune M (strSplit path slash)) := by
  have hok := h.treeOk
  obtain ⟨d', hdel, hcrop⟩ := h.sound.deleteDirectory hv hi hdir
  have hsame : ∀ j < 640, (diskTable d' j).Live → SameNode d d' j := fun j hj hl =>
    ⟨hcrop.type j hj hl, hcrop.files j hj hl⟩
  refine ⟨d', hdel, hcrop.sound, fun j hj hl => ?_, funext fun cs => ?_⟩
  · exact (hsame j hj hl).plainAt hl (h.plain j hj ((hcrop.live j hj).1 hl).1)
  · have hok' := hcrop.sound.treeOk
    by_cases hcs : strSplit path slash <+: cs
    · have hgone : (dirTree d' (diskTable d') r).walk r cs = none := by
        refine Option.eq_none_iff_forall_ne_some.2 fun j hj => ?_
        exact ((hcrop.path cs j).1 (hok'.walk_iff.1 hj)).2 hcs
      rw [prune_below hcs, filesOf, hgone]
      rfl
    · rw [prune_of_not hcs]
      refine h.filesOf_apply (Option.ext fun j => ?_) fun j hj => ?_
      · rw [hok'.walk_iff, hok.walk_iff, hcrop.path, and_iff_left hcs]
      · have hj' := (hcrop.path cs j).2 ⟨hj, hcs⟩
        obtain ⟨hlt, hl⟩ := hok'.live_of_path hj'
        exact (hsame j hlt hl).nodeAt_eq

/-! ## Moving -/

/-- **What is moved** is found at its new path, with all that is in it, and nothing else changes. -/
theorem move (h : Shows d r M) {p : ℕ} (hv : isValidPath path = true) (hv' : isValidPath newPath = true)
    (hc : ∀ c ∈ strSplit newPath slash, c.length < 60) (hne : path ≠ [slash]) (hne' : newPath ≠ [slash])
    (hi : resolve junk d path = some i) (hp : resolve junk d (splitPath newPath).1 = some p)
    (hfree : newPath = path ∨ resolve junk d newPath = none)
    (hfit : ParentFits M (strSplit newPath slash))
    (hpre : ¬ strSplit path slash <+: strSplit (splitPath newPath).1 slash)
    (hspace : ∀ q, resolve junk d (splitPath path).1 = some q → spaceToMove d q p = true) :
    M (strSplit (splitPath newPath).1 slash) = some .folder ∧
      ∃ d', moveFile junk d path newPath = some (true, d') ∧
        Shows d' r (FileMap.move M (strSplit path slash) (strSplit newPath slash)) := by
  have hok := h.treeOk
  have hpi := hok.path_of_resolve hv hi
  have hpp := hok.path_of_parent hv' hp
  have hir : i ≠ r := by
    rintro rfl
    exact hne (hok.resolve_root hv hi)
  obtain ⟨hsplit, hparent⟩ := h.parent_folder hv' hne' hfit
  have hpf := hparent p hpp
  obtain ⟨q, hq, -⟩ := hok.parent_of_entry hv hi hir
  have hq : resolve junk d (splitPath path).1 = some q := hq _ _
  obtain ⟨s, d', hmove, hdet, hrel⟩ := h.sound.moved_below hv hv' hc hne hi hq hp
  rw [hspace q hq] at hrel
  obtain ⟨-, -, -, -, -, rfl, hname⟩ := validPath_split hv' hne'
  obtain ⟨hs, hmoved, hgone, hother⟩ := hrel.sound h.sound hdet hpi hpp hpf hpre
    (hok.listed_as hv hv' hi hsplit hpp hpf hfree) ⟨hname.ne_nil, hc _ (by rw [hsplit]; simp)⟩
  have hsame : ∀ j < 640, (diskTable d j).Live → SameNode d d' j := by
    intro j hj hl
    refine ⟨(hrel.entry_iff hj).2, fun hf => ?_⟩
    obtain ⟨heq, hbytes⟩ := hrel.others hj (fun e => hrel.folder.not_isFile (e ▸ hf))
      (fun e => hpf.not_isFile (e ▸ hf)) hl
    exact .of_eq hl heq hbytes
  have hnode : ∀ cs j, (dirTree d (diskTable d) r).Path cs j → nodeAt d' j = nodeAt d j := by
    intro cs j hj
    obtain ⟨hlt, hl⟩ := hok.live_of_path hj
    exact (hsame j hlt hl).nodeAt_eq
  refine ⟨(h.folder_iff hpp).2 hpf, d', hmove, hs, fun j hj hl => ?_, funext fun cs => ?_⟩
  · have hl₀ := (hrel.entry_iff hj).1.1 hl
    exact (hsame j hj hl₀).plainAt hl (h.plain j hj hl₀)
  · by_cases hnew : strSplit newPath slash <+: cs
    · obtain ⟨rest, rfl⟩ := hnew
      have hwalk := hmoved rest
      rw [List.append_cons, ← hsplit] at hwalk
      rw [move_below, h.apply, filesOf, hwalk]
      cases e : (dirTree d (diskTable d) r).walk r (strSplit path slash ++ rest) with
      | none => rfl
      | some j => exact congrArg some (hnode _ j (hok.walk_iff.1 e))
    · have hnew' := hnew
      rw [hsplit] at hnew'
      by_cases hold : strSplit path slash <+: cs
      · rw [move_gone hnew hold, filesOf, hgone cs hnew' hold]
        rfl
      · rw [move_of_not hnew hold]
        exact h.filesOf_apply (hother cs hnew' hold) (hnode cs)

end Shows

/-! ## Booting -/

/-- Drive `d'` differs from `d` in sector 0 at most. -/
def SameBehind (d d' : Drive) : Prop :=
  d'.sectorCount = d.sectorCount ∧ ∀ k, 512 ≤ k → d'.bytes k = d.bytes k

theorem SameBehind.diskTable_eq (h : SameBehind d d') : diskTable d' = diskTable d := by
  unfold diskTable
  congr 1
  funext k
  exact h.2 _ (by omega)

theorem SameBehind.shows (h : SameBehind d d') (hd : Shows d r M) : Shows d' r M := by
  have htable := h.diskTable_eq
  have hok := hd.treeOk
  have hcontent : ∀ j < 640, (diskTable d j).Live → ∀ k < (diskTable d j).size.toNat,
      content d' (diskTable d j) k = content d (diskTable d j) k := by
    intro j hj hl k hk
    have := (hok.extents.bounds hj hl hk).2.1
    exact h.2 _ (by omega)
  have hfolders : SameFolders d (diskTable d) d' (diskTable d') := by
    intro q hq
    rw [htable, or_self] at hq
    rw [htable]
    exact ⟨rfl, hcontent q hq.1 hq.2.1⟩
  have hsame : ∀ j < 640, (diskTable d j).Live → SameNode d d' j := fun j hj hl =>
    ⟨by rw [htable], fun _ => .of_eq hl (by rw [htable]) (hcontent j hj hl)⟩
  refine ⟨⟨hok.congr hfolders h.1 (fun i _ hl => htable ▸ hl) (htable ▸ hok.extents), fun i hi hl => ?_⟩,
    fun j hj hl => ?_, funext fun cs => ?_⟩
  · rw [htable] at hl
    rw [hfolders.dirTree]
    exact hd.sound.path i hi hl
  · have hl₀ := hl
    rw [htable] at hl₀
    exact (hsame j hj hl₀).plainAt hl (hd.plain j hj hl₀)
  · refine hd.filesOf_apply (by rw [hfolders.dirTree]) fun j hj => ?_
    obtain ⟨hlt, hl⟩ := hok.live_of_path hj
    exact (hsame j hlt hl).nodeAt_eq

theorem sameBehind_initSuperblock (d : Drive) : SameBehind d (initSuperblock d) := by
  refine ⟨writeSectors_sectorCount, fun k hk => writeSectors_outside (by decide) (.inr ?_)⟩
  rw [sectorsOf_eq (by decide)]
  omega

theorem findRoot_congr {t t' : FileTable} (h : ∀ i < 640, t' i = t i) : findRoot t' = findRoot t := by
  unfold findRoot
  refine List.find?_congr fun i hi => ?_
  rw [h i (List.mem_range.1 hi)]

theorem Shows.findRoot_eq (h : Shows d r M) (junk : Junk) : findRoot (loadFileTable junk d) = some r := by
  have hok := h.treeOk
  have hle := hok.le_sectors
  rw [findRoot_congr fun i hi => loadFileTable_apply junk (by omega) hok.sectors_le hi]
  exact hok.findRoot_eq (i := 640) ⟨fun _ _ _ => rfl, fun hf => absurd hf.1 (lt_irrefl _),
    fun hlt => absurd hlt (lt_irrefl _), id⟩

/-- **`filesystem_init` keeps what is on a drive in order.** -/
theorem Shows.boot (h : Shows d r M) (junk : Junk) : Shows (filesystemInit junk d) r M := by
  have hsuper := (sameBehind_initSuperblock d).shows h
  unfold filesystemInit ensureRoot
  rw [hsuper.findRoot_eq]
  exact hsuper

theorem shows_root (h₁ : 642 ≤ d.sectorCount) (h₂ : d.sectorCount ≤ 65535) :
    Shows (saveFileTable d rootTable) 0 blank := by
  have hsc : (saveFileTable d rootTable).sectorCount = d.sectorCount := saveFileTable_sectorCount _
  have htable : ∀ i < 640, diskTable (saveFileTable d rootTable) i = rootTable i := fun i hi =>
    diskTable_save rootTable (by omega) h₂ hi
  have hlive : ∀ i < 640, (diskTable (saveFileTable d rootTable) i).Live → i = 0 := by
    intro i hi hl
    by_contra hne
    rw [htable i hi, rootTable, if_neg hne] at hl
    exact absurd hl (by decide)
  generalize saveFileTable d rootTable = d₀ at hsc htable hlive ⊢
  have hzero := htable 0 (by decide)
  have hroot : IsFolder (diskTable d₀) 0 := by
    rw [isFolder_congr hzero]
    exact ⟨by decide, rfl, .inr rfl⟩
  have hentries : ∀ q, IsFolder (diskTable d₀) q → dirEntries d₀ (diskTable d₀ q) = [] := by
    intro q hq
    rw [hlive q hq.1 hq.2.1, hzero]
    rfl
  have hnone : ∀ q, (dirTree d₀ (diskTable d₀) 0).entries q = [] := by
    intro q
    by_cases hq : IsFolder (diskTable d₀) q
    · rw [TreeOk.entries_eq hq, hentries q hq]
    · exact if_neg hq
  have hok : TreeOk d₀ (diskTable d₀) 0 := by
    refine ⟨hsc ▸ h₁, hsc ▸ h₂, ⟨by decide, hroot.2.1, ?_⟩, fun i hi hl _ => hlive i hi hl,
      fun q hq x hx => ?_, fun q hq x hx => ?_, ⟨fun q _ => ?_, fun q _ => ?_, ?_, fun q x _ hx => ?_⟩, ?_⟩
    · rw [hzero]
      rfl
    · rw [hentries q hq] at hx
      cases hx
    · rw [hentries q hq] at hx
      cases hx
    · rw [hnone q]
      exact List.nodup_nil
    · rw [hnone q]
      exact List.nodup_nil
    · intro q q' x x' _ _ hx
      rw [hnone q] at hx
      cases hx
    · rw [hnone q] at hx
      cases hx
    · have hx : ExtentsOk d₀.sectorCount rootTable :=
        ⟨fun i hi => absurd hi (rootTable_not_occupied i), fun i hi => absurd hi (rootTable_not_occupied i),
          fun i _ hi => absurd hi (rootTable_not_occupied i)⟩
      exact hx.congr htable
  refine ⟨⟨hok, fun i hi hl => ⟨[], ?_⟩⟩, fun i hi hl => .inl (hlive i hi hl ▸ hroot), funext fun cs => ?_⟩
  · rw [hlive i hi hl]
    exact .root
  · cases cs with
    | nil => exact congrArg some (nodeAt_folder hroot)
    | cons c cs =>
      rw [filesOf, Tree.walk, hnone 0]
      rfl

/-- **`filesystem_init` on a drive without a root** makes one, and nothing else is there. -/
theorem shows_init (h₁ : 642 ≤ d.sectorCount) (h₂ : d.sectorCount ≤ 65535)
    (hnone : findRoot (loadFileTable junk d) = none) : Shows (filesystemInit junk d) 0 blank := by
  have hsame := sameBehind_initSuperblock d
  have hroot : findRoot (loadFileTable junk (initSuperblock d)) = none := by
    rw [← hnone]
    refine findRoot_congr fun i hi => ?_
    rw [loadFileTable_apply junk (by rw [hsame.1]; omega) (by rw [hsame.1]; exact h₂) hi,
      loadFileTable_apply junk (by omega) h₂ hi, hsame.diskTable_eq]
  unfold filesystemInit ensureRoot
  rw [hroot]
  exact shows_root (hsame.1.symm ▸ h₁) (hsame.1.symm ▸ h₂)

end EitanOS
