import EitanOS.Disk.Delete

/-!
# Moving a file

`filesystem_move_file` takes an entry out of its folder and adds it to another one. It looks neither
at what the target is nor at whether the two edits succeed.

* `MovesFaithfully`: when it returns true, the entry and what is below it are at the new path, and
  everything else is where it was.
* `MoveAllowed`: the path is not `/`, unless the call does not return; the new path is free and in a folder, not below the path, and
  there is space for the folder to grow.
* **`move_faithful`**: the first holds exactly where the second does.
-/

namespace EitanOS

open Bytes Names

variable {d d' : Drive} {t : FileTable} {s s' : Fs} {r i j q f k : ℕ} {path newPath : List UInt8}

/-- **What moving a file should do** whenever it returns true. -/
def MovesFaithfully (junk : Junk) (d : Drive) (path newPath : List UInt8) : Prop :=
  ∀ d', moveFile junk d path newPath = some (true, d') → ∃ i, resolve junk d path = some i ∧
    WellFormed d' ∧ RootUnlisted d' ∧
    (∀ junk', resolve junk' d' newPath = some i) ∧
    (diskTable d' i = diskTable d i ∧ ∀ k < (diskTable d i).size.toNat,
      content d' (diskTable d i) k = content d (diskTable d i) k) ∧
    (∀ p p' rest, isValidPath p = true → isValidPath p' = true →
      strSplit p slash = strSplit path slash ++ rest →
      strSplit p' slash = strSplit newPath slash ++ rest →
        ∀ junk₀ junk', resolve junk' d' p' = resolve junk₀ d p) ∧
    (path ≠ newPath → ∀ junk', resolve junk' d' path = none) ∧
    (∀ p, isValidPath p = true → ¬ strSplit path slash <+: strSplit p slash →
      ¬ strSplit newPath slash <+: strSplit p slash →
        ∀ junk₀ junk', resolve junk' d' p = resolve junk₀ d p) ∧
    ∀ j < 640, (diskTable d j).Live → (diskTable d j).IsFile →
      diskTable d' j = diskTable d j ∧ ∀ k < (diskTable d j).size.toNat,
        content d' (diskTable d j) k = content d (diskTable d j) k

/-- There is space for folder `newDir` with one entry more, once folder `dir` has been written with
one less to the first place that fits. -/
def spaceToMove (d : Drive) (dir newDir : ℕ) : Bool :=
  let t : FileTable := diskTable d
  let size := ((t dir).size.toNat / 64 - 1) * 64
  match findSpaceForFile d (t.clear dir) size with
  | none => false
  | some start =>
    let t : FileTable := Function.update t dir ⟨magic, (t dir).type, start, UInt32.ofNat size⟩
    (findSpaceForFile d (t.clear newDir) (((t newDir).size.toNat / 64 + 1) * 64)).isSome

/-- **When a move is faithful.** `/` itself can only be moved if it has no more than one entry, and the
call does not return then. -/
def MoveAllowed (junk : Junk) (d : Drive) (path newPath : List UInt8) : Prop :=
  ∀ i dir newDir, resolve junk d path = some i → resolve junk d (splitPath path).1 = some dir →
    resolve junk d (splitPath newPath).1 = some newDir →
      (path = [slash] → (dirEntries d (diskTable d i)).length ≤ 1) ∧
      (path ≠ [slash] → newPath ≠ [slash] ∧ (newPath = path ∨ resolve junk d newPath = none) ∧
        IsFolder (diskTable d) newDir ∧
        ¬ strSplit path slash <+: strSplit (splitPath newPath).1 slash ∧
        spaceToMove d dir newDir = true)

/-! ## The two edits -/

/-- Between drives `d` and `d'`, entry `i` has been taken out of folder `q`, which gives state `s`,
and if `ok` it has been added to entry `p` as `name`. -/
structure Moved (d : Drive) (s : Fs) (d' : Drive) (r i q p : ℕ) (name : List UInt8) (ok : Bool) :
    Prop where
  folder : IsFolder (diskTable d) q
  entry : ∀ j < 640, ((s.table j).Live ↔ (diskTable d j).Live) ∧
    (s.table j).type = (diskTable d j).type
  rest : ∀ j < 640, j ≠ q → s.table j = diskTable d j
  contents : ∀ j < 640, j ≠ q → (diskTable d j).Live → ∀ k < (diskTable d j).size.toNat,
    content s.drive (diskTable d j) k = content d (diskTable d j) k
  treeOk : TreeOk s.drive s.table r
  appended : Appended s d' p i name ok

theorem Cut.onDisk (hc : Cut d t s r q i) (ht : ∀ j < 640, t j = diskTable d j) :
    (∀ j < 640, ((s.table j).Live ↔ (diskTable d j).Live) ∧
      (s.table j).type = (diskTable d j).type) ∧
    (∀ j < 640, j ≠ q → s.table j = diskTable d j) ∧
    (∀ j < 640, j ≠ q → (diskTable d j).Live → ∀ k < (diskTable d j).size.toNat,
      content s.drive (diskTable d j) k = content d (diskTable d j) k) ∧
    ∀ j < 640, diskTable s.drive j = s.table j := by
  obtain ⟨data, he⟩ := hc.edited
  refine ⟨fun j hj => ?_, fun j hj hjq => (he.table_of_ne hjq).trans (ht j hj),
    fun j hj hjq hl k hk => ?_, he.saved⟩
  · rw [he.live_iff, he.type_eq, ← ht j hj]
    exact ⟨Iff.rfl, rfl⟩
  · rw [← ht j hj] at hl hk ⊢
    exact he.others j hj hjq hl k hk

theorem Cut.spaceToMove_eq (hc : Cut d t s r q i) (ht : ∀ j < 640, t j = diskTable d j)
    (hq : q < 640) {p : ℕ} (hp : p < 640) : spaceToMove d q p =
      (findSpaceForFile s.drive (s.table.clear p) (((s.table p).size.toNat / 64 + 1) * 64)).isSome := by
  obtain ⟨data, he⟩ := hc.edited
  obtain ⟨start, htable⟩ := he.table
  dsimp only at htable
  rw [ht q hq] at htable
  have hstart : findSpaceForFile d ((diskTable d).clear q)
      (((diskTable d q).size.toNat / 64 - 1) * 64) = some start := by
    have hplace := hc.place
    rw [htable, Function.update_self, ht q hq,
      findSpaceForFile_congr rfl (FileTable.clear_congr ht q)] at hplace
    exact hplace
  have hagree : ∀ j < 640, Function.update (diskTable d) q ⟨magic, (diskTable d q).type,
      start, UInt32.ofNat (((diskTable d q).size.toNat / 64 - 1) * 64)⟩ j = s.table j := by
    intro j hj
    rw [htable]
    by_cases e : j = q
    · subst e
      rw [Function.update_self, Function.update_self]
    · rw [Function.update_of_ne e, Function.update_of_ne e, ht j hj]
  unfold spaceToMove
  dsimp only
  rw [hstart]
  dsimp only
  rw [hagree p hp, findSpaceForFile_congr he.sectors.symm (FileTable.clear_congr hagree p)]

/-- **A move inside one folder always has space**: the place the folder had is free again. -/
theorem Cut.spaceToMove_self (hc : Cut d t s r q i) (h : TreeOk d t r)
    (ht : ∀ j < 640, t j = diskTable d j) (hq : IsFolder t q) (hn : dirEntries d (t q) ≠ []) :
    spaceToMove d q q = true := by
  obtain ⟨data, he⟩ := hc.edited
  have hcount := h.count_le hq
  have hpos : 0 < (t q).size.toNat / 64 := length_dirEntries d (t q) ▸ List.length_pos_iff.2 hn
  have hocc : Occupied t q := by
    refine ⟨hq.1, hq.2.1, fun e => ?_⟩
    rw [e] at hpos
    exact absurd hpos (by decide)
  have hstop := h.extents.stop q hocc
  have hsc : s.drive.sectorCount = d.sectorCount := he.sectors
  unfold FileEntry.stop FileEntry.sectors at hstop
  rw [hc.spaceToMove_eq ht hq.1 hq.1, he.size_eq (by omega), Nat.mul_div_cancel _ (by omega),
    Nat.sub_add_cancel hpos]
  have hl : (s.table q).Live := (he.live_iff q).2 hq.2.1
  have hle : (t q).size.toNat / 64 * 64 ≤ 2 ^ 32 := by omega
  have hgap := hc.treeOk.tableOk.editFile_of_gap data hl hle (h.extents.start q hocc) (by omega)
    fun j hj hjq => ?_
  · obtain ⟨s', e⟩ := hgap
    rw [← editFile_fst data hl, e]
  · have htj : s.table j = t j := he.table_of_ne hjq
    obtain ⟨h₁, h₂, h₃⟩ := hj
    rw [htj] at h₂ h₃
    have := h.extents.disjoint q j hocc ⟨h₁, h₂, h₃⟩ (Ne.symm hjq)
    dsimp only at htj ⊢
    rw [htj]
    unfold FileEntry.stop FileEntry.sectors at this ⊢
    omega

theorem splitPath_name (hv : isValidPath path = true) (hc : ∀ c ∈ strSplit path slash, c.length < 60) :
    (splitPath path).2.length < 60 ∧ (0 : UInt8) ∉ (splitPath path).2 := by
  by_cases hne : path = [slash]
  · subst hne
    decide
  · obtain ⟨cs, name, hsplit, -, -, rfl, hname⟩ := validPath_split hv hne
    exact ⟨hc _ (by rw [hsplit]; simp), hname.zero_notMem⟩

theorem TreeOk.moveFile_eq (h : TreeOk d (diskTable d) r) {junk : Junk} {p : ℕ}
    (hv : isValidPath path = true) (hv' : isValidPath newPath = true)
    (e : resolve junk d path = some i) (hq : resolve junk d (splitPath path).1 = some q)
    (hp : resolve junk d (splitPath newPath).1 = some p) :
    moveFile junk d path newPath =
      (EitanOS.removeFileFromDir (junk.sub 4) ⟨d, loadFileTable (junk.sub 0) d⟩ q i).map fun x =>
        (true, (EitanOS.addFileToDir (junk.sub 5) x.2 p i (splitPath newPath).2).2.drive) := by
  unfold resolve at e
  unfold moveFile
  dsimp only
  rw [if_pos (by rw [hv, hv']; rfl), e, h.resolve_parent hv _ _ junk, hq,
    h.resolve_parent hv' _ _ junk, hp]

/-- **The two edits of a move**, for an entry that can be taken out of its folder. -/
theorem DiskSound.moved (h : DiskSound d r) {junk : Junk} {p : ℕ}
    (hv : isValidPath path = true) (hv' : isValidPath newPath = true)
    (hc : ∀ c ∈ strSplit newPath slash, c.length < 60)
    (e : resolve junk d path = some i) (hq : resolve junk d (splitPath path).1 = some q)
    (hp : resolve junk d (splitPath newPath).1 = some p)
    (hf : IsFolder (diskTable d) q) (hn : CanCut (dirEntries d (diskTable d q)) i) :
    ∃ s d', moveFile junk d path newPath = some (true, d') ∧
      Cut d (loadFileTable (junk.sub 0) d) s r q i ∧
      Moved d s d' r i q p (splitPath newPath).2 (spaceToMove d q p) := by
  have hok := h.treeOk
  have ht : ∀ j < 640, loadFileTable (junk.sub 0) d j = diskTable d j := fun j hj =>
    hok.loadFileTable_eq _ hj
  obtain ⟨hload, -⟩ := hok.load ht
  have hi := hok.live_of_path (hok.path_of_resolve hv e)
  have hplt : p < 640 ∧ (diskTable d p).Live := by
    obtain ⟨hhead, hcomp⟩ := validPath_parent hv'
    unfold resolve at hp
    rw [hok.resolve_eq _ _ hhead hcomp] at hp
    exact hok.live_of_path (hok.tree.walk_root.1 hp)
  obtain ⟨s, hrem, hcut⟩ := hload.removeFileFromDir ((isFolder_congr (ht q hf.1)).2 hf) (junk.sub 4)
    (by rwa [ht q hf.1])
  obtain ⟨hentry, hrest, hcont, hsaved⟩ := hcut.onDisk ht
  obtain ⟨hlen, hzero⟩ := splitPath_name hv' hc
  have happ := hcut.treeOk.appended hsaved (junk.sub 5) hplt.1 hlen hzero hi.1
  have hspace : (EitanOS.addFileToDir (junk.sub 5) s p i (splitPath newPath).2).1 =
      spaceToMove d q p := by
    rw [hcut.spaceToMove_eq ht hf.1 hplt.1]
    unfold EitanOS.addFileToDir
    exact editFile_fst _ ((hentry p hplt.1).1.2 hplt.2)
  rw [hspace] at happ
  refine ⟨s, _, ?_, hcut, hf, hentry, hrest, hcont, hcut.treeOk, happ⟩
  rw [hok.moveFile_eq hv hv' e hq hp, hrem]
  rfl

namespace Moved

variable {p : ℕ} {name : List UInt8} {ok : Bool}

theorem entry_iff (h : Moved d s d' r i q p name ok) (hj : j < 640) :
    ((diskTable d' j).Live ↔ (diskTable d j).Live) ∧ (diskTable d' j).type = (diskTable d j).type := by
  obtain ⟨h₁, h₂⟩ := h.entry j hj
  obtain ⟨h₃, h₄⟩ := h.appended.entry j hj
  exact ⟨h₃.trans h₁, h₄.trans h₂⟩

theorem isFolder_mid (h : Moved d s d' r i q p name ok) :
    IsFolder s.table j ↔ IsFolder (diskTable d) j := by
  refine and_congr_right fun hlt => ?_
  obtain ⟨h₁, h₂⟩ := h.entry j hlt
  rw [h₁, FileEntry.IsDir, FileEntry.IsRoot, h₂]

theorem isFolder_iff (h : Moved d s d' r i q p name ok) :
    IsFolder (diskTable d') j ↔ IsFolder (diskTable d) j :=
  h.appended.isFolder_iff.trans h.isFolder_mid

theorem others (h : Moved d s d' r i q p name ok) (hj : j < 640) (hjq : j ≠ q) (hjp : j ≠ p)
    (hl : (diskTable d j).Live) : diskTable d' j = diskTable d j ∧
      ∀ k < (diskTable d j).size.toNat,
        content d' (diskTable d j) k = content d (diskTable d j) k := by
  have hs := h.rest j hj hjq
  refine ⟨(h.appended.rest j hj hjp).trans hs, fun k hk => ?_⟩
  have h₁ := h.appended.contents j hj hjp ((h.entry j hj).1.2 hl) k (by rwa [hs])
  rw [hs] at h₁
  exact h₁.trans (h.contents j hj hjq hl k hk)

theorem isDir_mid (h : Moved d s d' r i q p name ok) :
    (dirTree s.drive s.table r).isDir = (dirTree d (diskTable d) r).isDir := by
  funext j
  exact isDir_dirTree_congr (h.entry j)

/-- **What the folders list then.** -/
theorem mem_dirEntries (h : Moved d s d' r i q p name ok)
    (hdet : Tree.Detaches (dirTree d (diskTable d) r) (dirTree s.drive s.table r) i)
    (hf : IsFolder (diskTable d) f) {x : List UInt8 × ℕ} :
    x ∈ dirEntries d' (diskTable d' f) ↔ (x ∈ dirEntries d (diskTable d f) ∧ x.2 ≠ i) ∨
      f = p ∧ ok = true ∧ x = (name, i) := by
  have hf' := h.isFolder_mid.2 hf
  rw [h.appended.mem_dirEntries hf', ← TreeOk.entries_eq (r := r) hf',
    hdet.mem_entries (h.treeOk.folder_iff.2 hf'), TreeOk.entries_eq hf]

/-- **The entry hangs below its new folder.** -/
theorem attaches (h : Moved d s d' r i q p name true)
    (hdet : Tree.Detaches (dirTree d (diskTable d) r) (dirTree s.drive s.table r) i)
    (hp : IsFolder (diskTable d) p)
    (hname : ∀ x ∈ dirEntries d (diskTable d p), x.1 = name → x.2 = i) :
    Tree.Attaches (dirTree s.drive s.table r) (dirTree d' (diskTable d') r) p name i := by
  have hp' := h.isFolder_mid.2 hp
  refine h.appended.attaches h.treeOk hp' (fun x hx e => ?_)
    (fun f x hf hx => ((hdet.mem_entries hf).1 hx).2) hdet.ne_root
  rw [← TreeOk.entries_eq (r := r) hp', hdet.mem_entries (h.treeOk.folder_iff.2 hp'),
    TreeOk.entries_eq hp] at hx
  exact hx.2 (hname x hx.1 e)

/-- **A move into a folder outside**, under a name that is free there. -/
theorem sound (h : Moved d s d' r i q p name true) (hd : DiskSound d r)
    (hdet : Tree.Detaches (dirTree d (diskTable d) r) (dirTree s.drive s.table r) i)
    {csp cs' : List (List UInt8)} (hi : (dirTree d (diskTable d) r).Path csp i)
    (hp : (dirTree d (diskTable d) r).Path cs' p) (hpf : IsFolder (diskTable d) p)
    (hpre : ¬ csp <+: cs') (hname : ∀ x ∈ dirEntries d (diskTable d p), x.1 = name → x.2 = i)
    (hn : name ≠ [] ∧ name.length < 60) :
    DiskSound d' r ∧
      (∀ rest, (dirTree d' (diskTable d') r).walk r (cs' ++ name :: rest) =
        (dirTree d (diskTable d) r).walk r (csp ++ rest)) ∧
      (∀ cs, ¬ cs' ++ [name] <+: cs → csp <+: cs →
        (dirTree d' (diskTable d') r).walk r cs = none) ∧
      ∀ cs, ¬ cs' ++ [name] <+: cs → ¬ csp <+: cs →
        (dirTree d' (diskTable d') r).walk r cs = (dirTree d (diskTable d) r).walk r cs := by
  have hok := hd.treeOk
  have hatt := h.attaches hdet hpf hname
  have hmid := hdet.ok hok.tree
  have hpmid : (dirTree s.drive s.table r).Path cs' p := (hdet.path hok.tree hi).2 ⟨hp, hpre⟩
  have hlt := hok.live_of_path hi
  have hbelow : ∀ rest x, (dirTree s.drive s.table r).Below i rest x ↔
      (dirTree d (diskTable d) r).Path (csp ++ rest) x := fun rest x => by
    rw [hok.tree.path_append hi]
    exact hdet.below hok.tree hi h.isDir_mid
  refine ⟨⟨h.appended.treeOk h.treeOk (hatt.ok hmid) ⟨hlt.1, (h.entry i hlt.1).1.2 hlt.2⟩ hn,
    fun j hj hl => ?_⟩, fun rest => ?_, fun cs h₁ h₂ => ?_, fun cs h₁ h₂ => ?_⟩
  · obtain ⟨cs, hcs⟩ := hd.path j hj ((h.entry_iff hj).1.1 hl)
    by_cases hc : csp <+: cs
    · obtain ⟨rest, rfl⟩ := hc
      exact ⟨_, (hatt.path hmid hpmid).2 (.inr ⟨rest, rfl, (hbelow rest j).2 hcs⟩)⟩
    · exact ⟨cs, hatt.path_mono ((hdet.path hok.tree hi).2 ⟨hcs, hc⟩)⟩
  · apply Option.ext
    intro x
    exact (hatt.walk_below hmid hpmid).trans ((hbelow rest x).trans hok.tree.walk_root.symm)
  · exact (hatt.walk_other hmid hpmid h₁).trans (hdet.walk_below hok.tree hi h₂)
  · exact (hatt.walk_other hmid hpmid h₁).trans (hdet.walk_other hok.tree hi h₂)

end Moved

/-! ## A move that is allowed -/

theorem TreeOk.resolve_of_moveFile (h : TreeOk d (diskTable d) r) {junk : Junk}
    (hv : isValidPath path = true) (hv' : isValidPath newPath = true)
    (e : moveFile junk d path newPath = some (true, d')) :
    ∃ i q p, resolve junk d path = some i ∧ resolve junk d (splitPath path).1 = some q ∧
      resolve junk d (splitPath newPath).1 = some p := by
  have hi : resolvePath (junk.sub 1) d (loadFileTable (junk.sub 0) d) path = resolve junk d path :=
    rfl
  unfold moveFile at e
  dsimp only at e
  rw [if_pos (by rw [hv, hv']; rfl), hi, h.resolve_parent hv _ _ junk,
    h.resolve_parent hv' _ _ junk] at e
  cases e₁ : resolve junk d path <;> cases e₂ : resolve junk d (splitPath path).1 <;>
    cases e₃ : resolve junk d (splitPath newPath).1 <;> simp_all

theorem DiskSound.moveFile_root (h : DiskSound d r) {junk : Junk} {p : ℕ}
    (hv' : isValidPath newPath = true) (e : resolve junk d [slash] = some i)
    (hp : resolve junk d (splitPath newPath).1 = some p)
    (hn : (dirEntries d (diskTable d i)).length ≤ 1) : moveFile junk d [slash] newPath = none := by
  have hok := h.treeOk
  have hs : isValidPath [slash] = true := by decide
  obtain rfl : r = i := (hok.path_of_resolve hs e).node_unique hok.tree .root
  have hr := hok.root.1
  have hload := (hok.load fun j hj => hok.loadFileTable_eq (junk.sub 0) hj).1
  rw [hok.moveFile_eq hs hv' e e hp]
  rcases hload.removeFileFromDir_eq hload.isFolder_root rfl (junk.sub 4) r with ⟨hnone, -⟩ | ⟨-, hcut⟩
  · rw [hnone]
    rfl
  · rw [hload.canCut_root, hok.loadFileTable_eq _ hr] at hcut
    omega

/-- **The two edits of a move**, for an entry other than the root. -/
theorem DiskSound.moved_below (h : DiskSound d r) {junk : Junk} {p : ℕ}
    (hv : isValidPath path = true) (hv' : isValidPath newPath = true)
    (hc : ∀ c ∈ strSplit newPath slash, c.length < 60) (hne : path ≠ [slash])
    (e : resolve junk d path = some i) (hq : resolve junk d (splitPath path).1 = some q)
    (hp : resolve junk d (splitPath newPath).1 = some p) :
    ∃ s d', moveFile junk d path newPath = some (true, d') ∧
      Tree.Detaches (dirTree d (diskTable d) r) (dirTree s.drive s.table r) i ∧
      Moved d s d' r i q p (splitPath newPath).2 (spaceToMove d q p) := by
  have hok := h.treeOk
  have ht : ∀ j < 640, loadFileTable (junk.sub 0) d j = diskTable d j := fun j hj =>
    hok.loadFileTable_eq _ hj
  obtain ⟨hload, htree⟩ := hok.load ht
  obtain ⟨cs, q', -, rfl, hpq, hf, hm⟩ := hok.parent_of_resolve hv hne e
  obtain rfl : q = q' := hpq.node_unique hok.tree (hok.path_of_parent hv hq)
  obtain ⟨s, d', hmove, hcut, hrel⟩ := h.moved hv hv' hc e hq hp hf (canCut_of_mem hm)
  refine ⟨s, d', hmove, ?_, hrel⟩
  rw [← htree]
  exact hcut.detaches hload ((isFolder_congr (ht q hf.1)).2 hf) (by rwa [ht q hf.1])

theorem TreeOk.listed_as (h : TreeOk d (diskTable d) r) {junk : Junk} {p : ℕ} {cs : List (List UInt8)}
    {name : List UInt8} (hv : isValidPath path = true) (hv' : isValidPath newPath = true)
    (e : resolve junk d path = some i) (hsplit : strSplit newPath slash = cs ++ [name])
    (hp : (dirTree d (diskTable d) r).Path cs p) (hf : IsFolder (diskTable d) p)
    (hfree : newPath = path ∨ resolve junk d newPath = none) :
    ∀ x ∈ dirEntries d (diskTable d p), x.1 = name → x.2 = i := by
  rintro ⟨c, x⟩ hx rfl
  rw [← TreeOk.entries_eq (r := r) hf] at hx
  have hx := Tree.Path.snoc hp (h.folder_iff.2 hf) hx
  rw [← hsplit] at hx
  rcases hfree with rfl | hnone
  · exact (h.path_of_resolve hv e).node_unique h.tree hx
  · cases hnone.symm.trans ((h.resolve_iff hv').2 hx)

/-- **A move that is allowed is faithful.** -/
theorem DiskSound.movesFaithfully (h : DiskSound d r) {junk : Junk} (hv : isValidPath path = true)
    (hv' : isValidPath newPath = true) (hc : ∀ c ∈ strSplit newPath slash, c.length < 60)
    (ha : MoveAllowed junk d path newPath) : MovesFaithfully junk d path newPath := by
  have hok := h.treeOk
  intro d' hmove
  obtain ⟨i, q, p, e, hq, hp⟩ := hok.resolve_of_moveFile hv hv' hmove
  obtain ⟨hroot, hbelow⟩ := ha i q p e hq hp
  have hne : path ≠ [slash] := by
    rintro rfl
    rw [h.moveFile_root hv' e hp (hroot rfl)] at hmove
    cases hmove
  obtain ⟨hne', hfree, hpf, hpre, hspace⟩ := hbelow hne
  obtain ⟨s, d'', hmove', hdet, hrel⟩ := h.moved_below hv hv' hc hne e hq hp
  obtain rfl : d' = d'' := by
    rw [hmove] at hmove'
    cases hmove'
    rfl
  rw [hspace] at hrel
  have hi := hok.path_of_resolve hv e
  have hpp := hok.path_of_parent hv' hp
  obtain ⟨cs', name, hsplit, -, hdir, rfl, hcomp⟩ := validPath_split hv' hne'
  rw [hdir] at hpp hpre
  obtain ⟨hs, hmoved, hgone, hother⟩ := hrel.sound h hdet hi hpp hpf hpre
    (hok.listed_as hv hv' e hsplit hpp hpf hfree) ⟨hcomp.ne_nil, hc _ (by rw [hsplit]; simp)⟩
  obtain ⟨hwf, hu⟩ := hs.wellFormed
  have hlt := hok.live_of_path hi
  have hiq : q ≠ i := by
    obtain ⟨cs, name, hsplit₀, -, hdir₀, -⟩ := validPath_split hv hne
    refine (hok.path_of_parent hv hq).ne_of_append hok.tree (c := name) ?_
    rwa [hdir₀, ← hsplit₀]
  have hip : i ≠ p := by
    rintro rfl
    exact hpre (hi.unique hok.tree hpp ▸ List.prefix_rfl)
  refine ⟨i, e, hwf, hu, fun junk' => ?_, hrel.others hlt.1 hiq.symm hip hlt.2,
    fun a b rest ha hb ea eb junk₀ junk' => ?_, fun hpn junk' => ?_,
    fun a ha h₁ h₂ junk₀ junk' => ?_, fun j hj hl hfile => ?_⟩
  · rw [hs.treeOk.resolve_walk hv', hsplit, hmoved [], List.append_nil]
    exact hok.tree.walk_root.2 hi
  · rw [hs.treeOk.resolve_walk hb, hok.resolve_walk ha, ea, eb, hsplit, List.append_assoc]
    exact hmoved rest
  · rw [hs.treeOk.resolve_walk hv]
    refine hgone _ (fun hpre' => ?_) List.prefix_rfl
    -- a beginning of the path resolves
    obtain ⟨rest, hrest⟩ := hpre'
    rw [← hrest] at hi
    obtain ⟨x, hx, -⟩ := hi.split
    rw [← hsplit, ← hok.tree.walk_root] at hx
    have hnone := hfree.resolve_left fun h => hpn h.symm
    rw [hok.resolve_walk hv'] at hnone
    exact absurd (hnone.symm.trans hx) (by simp)
  · rw [hs.treeOk.resolve_walk ha, hok.resolve_walk ha]
    exact hother _ (hsplit ▸ h₂) h₁
  · refine hrel.others hj ?_ ?_ hl
    · rintro rfl
      exact hrel.folder.not_isFile hfile
    · rintro rfl
      exact hpf.not_isFile hfile

/-! ## A move that is not -/

namespace Moved

variable {p : ℕ} {name : List UInt8} {ok : Bool} {csp cs' : List (List UInt8)}

theorem of_listed (h : Moved d s d' r i q p name ok) (hok : TreeOk d (diskTable d) r)
    (hdet : Tree.Detaches (dirTree d (diskTable d) r) (dirTree s.drive s.table r) i)
    (hi : (dirTree d (diskTable d) r).Path csp i) (hwf : WellFormed d') :
    IsFolder (diskTable d) p ∧ ok = true := by
  obtain ⟨hlt, hl⟩ := hok.live_of_path hi
  obtain ⟨h₁, h₂⟩ := h.entry_iff hlt
  obtain ⟨f, j, hlist, -⟩ := hwf.listed i hlt (h₁.2 hl) fun hr =>
    hdet.ne_root (hok.root_unique i hlt hl (h₂.symm.trans hr))
  have hf := h.isFolder_iff.1 hlist.1
  obtain ⟨-, name', hj⟩ := hlist
  rcases (h.mem_dirEntries hdet hf).1 (List.mem_of_getElem? hj) with ⟨-, hne⟩ | ⟨rfl, hokay, -⟩
  · exact absurd rfl hne
  · exact ⟨hf, hokay⟩

theorem of_reachable (h : Moved d s d' r i q p name ok) (hok : TreeOk d (diskTable d) r)
    (hdet : Tree.Detaches (dirTree d (diskTable d) r) (dirTree s.drive s.table r) i)
    (hi : (dirTree d (diskTable d) r).Path csp i) (hp : (dirTree d (diskTable d) r).Path cs' p)
    (hwf : WellFormed d') : ¬ csp <+: cs' := by
  rintro ⟨rest₀, rfl⟩
  rw [hok.tree.path_append hi] at hp
  -- from the root, no folder entry leads below `i`
  have hout : ∀ x, Reachable d' x → ∀ rest, ¬ (dirTree d (diskTable d) r).Below i rest x := by
    intro x hx
    induction hx with
    | @root r' h₁ h₂ h₃ =>
      intro rest hb
      obtain ⟨h₄, h₅⟩ := h.entry_iff h₁
      obtain rfl := hok.root_unique r' h₁ (h₄.1 h₂) (h₅.symm.trans h₃)
      have hnil := ((hok.tree.path_append hi).2 hb).unique hok.tree .root
      rw [List.append_eq_nil_iff] at hnil
      rw [hnil.1] at hi
      exact hdet.ne_root (Tree.Path.root.node_unique hok.tree hi)
    | @step f j x _ hlist ih =>
      intro rest hb
      have hf := h.isFolder_iff.1 hlist.1
      obtain ⟨-, name', hj⟩ := hlist
      rcases (h.mem_dirEntries hdet hf).1 (List.mem_of_getElem? hj) with ⟨hm, hne⟩ | ⟨rfl, -, e⟩
      · cases hb with
        | here => exact hne rfl
        | snoc hb hq' hm' =>
          rw [← TreeOk.entries_eq (r := r) hf] at hm
          cases hok.tree.parent _ _ _ _ hq' (hok.folder_iff.2 hf) hm' hm rfl
          exact ih _ hb
      · exact ih _ hp
  obtain ⟨hlt, hl⟩ := hok.live_of_path hi
  obtain ⟨h₁, h₂⟩ := h.entry_iff hlt
  refine hout i (hwf.reachable i hlt (h₁.2 hl) fun hr => ?_) [] .here
  exact hdet.ne_root (hok.root_unique i hlt hl (h₂.symm.trans hr))

theorem of_distinct (h : Moved d s d' r i q p name true)
    (hdet : Tree.Detaches (dirTree d (diskTable d) r) (dirTree s.drive s.table r) i)
    (hp : IsFolder (diskTable d) p) (hwf : WellFormed d') {x : ℕ}
    (hx : (name, x) ∈ dirEntries d (diskTable d p)) : x = i := by
  by_contra hne
  have h₁ := (h.mem_dirEntries hdet hp).2 (.inl ⟨hx, hne⟩)
  have h₂ := (h.mem_dirEntries hdet hp).2 (.inr ⟨rfl, rfl, rfl⟩)
  have := List.inj_on_of_nodup_map (hwf.distinct p (h.isFolder_iff.2 hp)) h₁ h₂ rfl
  exact hne (congrArg Prod.snd this)

theorem resolve_slash (h : Moved d s d' r i q p name ok) (hok : TreeOk d (diskTable d) r)
    (hir : i ≠ r) (hi : i < 640) (hwf : WellFormed d') (hu : RootUnlisted d') {junk : Junk} :
    resolve junk d' [slash] ≠ some i := by
  obtain ⟨r', hd'⟩ := hwf.sound hu (h.appended.sectors ▸ h.treeOk.le_sectors)
    (h.appended.sectors ▸ h.treeOk.sectors_le)
  rw [hd'.treeOk.resolve_walk (by decide), strSplit_slash]
  intro e
  obtain rfl : r' = i := Option.some.inj e
  obtain ⟨h₁, h₂⟩ := h.entry_iff hi
  obtain ⟨-, hl, hr⟩ := hd'.treeOk.root
  exact hir (hok.root_unique r' hi (h₁.1 hl) (h₂.symm.trans hr))

end Moved

/-- **Moving a root with entries loses the last one.** -/
theorem Cut.root_not_wellFormed (hc : Cut d t s r r r) (ht : ∀ j < 640, t j = diskTable d j)
    (hok : TreeOk d (diskTable d) r) (hn : dirEntries d (diskTable d r) ≠ []) {p : ℕ}
    {name : List UInt8} {ok : Bool} (h : Moved d s d' r r r p name ok) : ¬ WellFormed d' := by
  intro hwf
  have hroot := hok.isFolder_root
  obtain ⟨⟨nm, c⟩, hlast⟩ : ∃ x, x = (dirEntries d (diskTable d r)).getLast hn := ⟨_, rfl⟩
  have hmem : (nm, c) ∈ dirEntries d (diskTable d r) := hlast ▸ List.getLast_mem hn
  have hmemT : (nm, c) ∈ (dirTree d (diskTable d) r).entries r := by
    rwa [TreeOk.entries_eq hroot]
  have hcr : c ≠ r := hok.tree.root r _ (hok.folder_iff.2 hroot) hmemT
  obtain ⟨hlt, hl⟩ := hok.live r hroot _ hmem
  obtain ⟨h₁, h₂⟩ := h.entry_iff hlt
  obtain ⟨f, j, hlist, -⟩ := hwf.listed c hlt (h₁.2 hl) fun hr =>
    hcr (hok.root_unique c hlt hl (h₂.symm.trans hr))
  have hf := h.isFolder_iff.1 hlist.1
  obtain ⟨-, name', hj⟩ := hlist
  rcases (h.appended.mem_dirEntries (h.isFolder_mid.2 hf)).1 (List.mem_of_getElem? hj) with hm | ⟨-, -, e⟩
  · by_cases hfr : f = r
    · -- the root lists all but the last of its entries
      subst hfr
      have hall : (dirEntries d (diskTable d f)).filter (fun x => x.2 ≠ f) =
          dirEntries d (diskTable d f) := List.filter_eq_self.2 fun x hx => by
        rw [← TreeOk.entries_eq (r := f) hroot] at hx
        exact decide_eq_true (hok.tree.root f x (hok.folder_iff.2 hroot) hx)
      rw [hc.entries, ht f hroot.1, hall, ← List.dropLast_eq_take] at hm
      have hnodup := hok.tree.nodes f (hok.folder_iff.2 hroot)
      rw [TreeOk.entries_eq hroot, ← List.dropLast_append_getLast hn, ← hlast, List.map_append] at hnodup
      exact (List.nodup_append.1 hnodup).2.2 c (List.mem_map_of_mem hm) c (by simp) rfl
    · have he : dirEntries s.drive (s.table f) = dirEntries d (diskTable d f) := by
        rw [h.rest f hf.1 hfr]
        exact dirEntries_congr (h.contents f hf.1 hfr hf.2.1)
      rw [he, ← TreeOk.entries_eq (r := r) hf] at hm
      exact hfr (hok.tree.parent f r _ _ (hok.folder_iff.2 hf) (hok.folder_iff.2 hroot) hm hmemT rfl)
  · exact hcr (congrArg Prod.snd e)

/-- **A move that is not allowed is not faithful.** -/
theorem DiskSound.moveAllowed (h : DiskSound d r) {junk : Junk} (hv : isValidPath path = true)
    (hv' : isValidPath newPath = true) (hc : ∀ c ∈ strSplit newPath slash, c.length < 60)
    (hm : MovesFaithfully junk d path newPath) : MoveAllowed junk d path newPath := by
  have hok := h.treeOk
  intro i q p e hq hp
  refine ⟨?_, fun hne => ?_⟩
  · rintro rfl
    by_contra hn
    obtain rfl : r = i := (hok.path_of_resolve hv e).node_unique hok.tree .root
    have hcan := hok.canCut_root.2 (by omega)
    obtain ⟨s, d', hmove, hcut, hrel⟩ := h.moved hv hv' hc e e hp hok.isFolder_root hcan
    obtain ⟨-, -, hwf, -⟩ := hm d' hmove
    exact hcut.root_not_wellFormed (fun j hj => hok.loadFileTable_eq _ hj) hok hcan.1 hrel hwf
  · obtain ⟨s, d', hmove, hdet, hrel⟩ := h.moved_below hv hv' hc hne e hq hp
    obtain ⟨i', e', hwf, hu, hnew, -⟩ := hm d' hmove
    obtain rfl : i = i' := Option.some.inj (e.symm.trans e')
    have hi := hok.path_of_resolve hv e
    have hpp := hok.path_of_parent hv' hp
    obtain ⟨hpf, hspace⟩ := hrel.of_listed hok hdet hi hwf
    have hne' : newPath ≠ [slash] := by
      rintro rfl
      exact hrel.resolve_slash hok hdet.ne_root (hok.live_of_path hi).1 hwf hu (hnew junk)
    refine ⟨hne', ?_, hpf, hrel.of_reachable hok hdet hi hpp hwf, hspace⟩
    rw [hspace] at hrel
    cases eold : resolve junk d newPath with
    | none => exact .inr rfl
    | some x =>
      have hx := hok.path_of_resolve hv' eold
      obtain ⟨cs', q', -, rfl, hpq, hf, hmem⟩ := hok.parent_of_resolve hv' hne' eold
      obtain rfl : p = q' := hpq.node_unique hok.tree hpp
      obtain rfl := hrel.of_distinct hdet hf hwf hmem
      exact .inl (validPath_ext hv hv' (hx.unique hok.tree hi))

/-- **Moving a file is faithful** exactly where it is allowed. -/
theorem move_faithful (h : WellFormed d) (hu : RootUnlisted d) (h₁ : 642 ≤ d.sectorCount)
    (h₂ : d.sectorCount ≤ 65535) (hv : isValidPath path = true) (hv' : isValidPath newPath = true)
    (hc : ∀ c ∈ strSplit path slash ++ strSplit newPath slash, c.length < 60) (junk : Junk) :
    MovesFaithfully junk d path newPath ↔ MoveAllowed junk d path newPath := by
  obtain ⟨r, hd⟩ := h.sound hu h₁ h₂
  have hc' : ∀ c ∈ strSplit newPath slash, c.length < 60 := fun c hm =>
    hc c (List.mem_append_right _ hm)
  exact ⟨hd.moveAllowed hv hv' hc', hd.movesFaithfully hv hv' hc'⟩

/-- **Moving `/a` below itself**: the file is taken out of the root, and the entry for it goes to the
end of the file. -/
theorem move_below_file : WellFormed oneFile ∧ RootUnlisted oneFile ∧ 642 ≤ oneFile.sectorCount ∧
    oneFile.sectorCount ≤ 65535 ∧ isValidPath [47, 97] = true ∧ isValidPath [47, 97, 47, 98] = true ∧
    ∃ d', moveFile zeroJunk oneFile [47, 97] [47, 97, 47, 98] = some (true, d') ∧
      ¬ WellFormed d' := by
  obtain ⟨i, h⟩ := oneFile_written
  have hok := h.sound.treeOk
  obtain ⟨hwf, hu⟩ := h.sound.wellFormed
  have hv : isValidPath [47, 97] = true := by decide
  have hv' : isValidPath [47, 97, 47, 98] = true := by decide
  refine ⟨hwf, hu, hok.le_sectors, hok.sectors_le, hv, hv', ?_⟩
  have e := oneFile_resolve h zeroJunk
  have hq : resolve zeroJunk oneFile (splitPath [47, 97]).1 = some 0 :=
    hok.resolve_eq _ _ (validPath_parent hv).1 (validPath_parent hv).2
  have hp : resolve zeroJunk oneFile (splitPath [47, 97, 47, 98]).1 = some i :=
    (hok.resolve_eq _ _ (validPath_parent hv').1 (validPath_parent hv').2).trans h.here
  obtain ⟨s, d', hmove, hdet, hrel⟩ := h.sound.moved_below hv hv' (by decide) (by decide) e hq hp
  refine ⟨d', hmove, fun hwf' => ?_⟩
  exact (hrel.of_listed hok hdet (hok.path_of_resolve hv e) hwf').1.not_isFile h.file

theorem move_faithful_rename : MovesFaithfully zeroJunk oneFile [47, 97] [47, 98] ∧
    ∃ d', moveFile zeroJunk oneFile [47, 97] [47, 98] = some (true, d') := by
  obtain ⟨i, h⟩ := oneFile_written
  have hok := h.sound.treeOk
  obtain ⟨hwf, hu⟩ := h.sound.wellFormed
  have hv : isValidPath [47, 97] = true := by decide
  have hv' : isValidPath [47, 98] = true := by decide
  have e := oneFile_resolve h zeroJunk
  have hq : resolve zeroJunk oneFile (splitPath [47, 97]).1 = some 0 :=
    hok.resolve_eq _ _ (validPath_parent hv).1 (validPath_parent hv).2
  have hnone : resolve zeroJunk oneFile [47, 98] = none := by
    rw [hok.resolve_walk hv']
    exact (h.elsewhere _ (by decide)).trans (walk_freshDrive [98] [])
  have hn := canCut_of_mem (oneFile_listed h)
  have ht : ∀ j < 640, loadFileTable (zeroJunk.sub 0) oneFile j = diskTable oneFile j :=
    fun j hj => hok.loadFileTable_eq _ hj
  obtain ⟨hload, -⟩ := hok.load ht
  obtain ⟨s, d', hmove, hcut, -⟩ := h.sound.moved hv hv' (by decide) e hq hq hok.isFolder_root hn
  refine ⟨(move_faithful hwf hu hok.le_sectors hok.sectors_le hv hv' (by decide) zeroJunk).mpr ?_,
    d', hmove⟩
  intro i' q p e' hq' hp'
  obtain rfl : 0 = q := Option.some.inj (hq.symm.trans hq')
  obtain rfl : 0 = p := Option.some.inj (hq.symm.trans hp')
  have hspace := hcut.spaceToMove_self hload ht hload.isFolder_root (by rw [ht 0 (by decide)]; exact hn.1)
  exact ⟨fun hs => absurd hs (by decide), fun _ => ⟨by decide, .inr hnone, hok.isFolder_root,
    by decide, hspace⟩⟩

end EitanOS
