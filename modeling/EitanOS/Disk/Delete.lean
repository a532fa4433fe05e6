import EitanOS.Disk.Create

/-!
# Deleting a file

`filesystem_delete_file` takes an entry out of its folder and frees its slot, whatever the entry is.

* `DeletesOnly`: the drive is in order afterwards, and nothing but the named entry is gone.
* `Removable`: the entry is not the root, and no folder with entries.
* `Removed`: entry `i` is free and its folder does not list it. **`Removed.treeOk`**: the drive then holds
  a tree, whatever the table had for `i` before.
* **`delete_keeps_tree`**: `DeletesOnly` holds exactly where the entry is `Removable`.
* **`Unlinked.not_wellFormed`**: what was in a directory that is deleted is lost;
  **`DiskSound.deleteFile_root`**: so is everything when `/` is deleted.
-/

namespace EitanOS

open Bytes Names

variable {d d' : Drive} {t t' : FileTable} {s s' : Fs} {r i j q k f : ℕ} {path : List UInt8}

/-- Entry `i` is not the root, and no folder with entries. -/
def Removable (d : Drive) (i : ℕ) : Prop :=
  ¬ (diskTable d i).IsRoot ∧ (IsFolder (diskTable d) i → dirEntries d (diskTable d i) = [])

/-- **What deleting a path should do.** It returns, the drive is in order, and what other folder
entries and files there were is still there. If it returns true, the path does not resolve any more,
and the paths that are not below it resolve as before. -/
def DeletesOnly (junk : Junk) (d : Drive) (path : List UInt8) : Prop :=
  ∃ b d', deleteFile junk d path = some (b, d') ∧ WellFormed d' ∧ RootUnlisted d' ∧
    (∀ q x, IsFolder (diskTable d) q → x ∈ dirEntries d (diskTable d q) →
      resolve junk d path ≠ some x.2 →
        IsFolder (diskTable d') q ∧ x ∈ dirEntries d' (diskTable d' q)) ∧
    (∀ j < 640, (diskTable d j).Live → (diskTable d j).IsFile → resolve junk d path ≠ some j →
      diskTable d' j = diskTable d j ∧ ∀ k < (diskTable d j).size.toNat,
        content d' (diskTable d j) k = content d (diskTable d j) k) ∧
    (b = true → (∀ junk', resolve junk' d' path = none) ∧
      ∀ p, isValidPath p = true → ¬ strSplit path slash <+: strSplit p slash →
        ∀ junk₀ junk', resolve junk' d' p = resolve junk₀ d p)

/-! ## Freeing a slot -/

/-- Drive `d'` holds what `d` does under table `t`, but for entry `i`, which is free. -/
structure Freed (d : Drive) (t : FileTable) (d' : Drive) (i : ℕ) : Prop where
  sectors : d'.sectorCount = d.sectorCount
  gone : ¬ (diskTable d' i).Live
  rest : ∀ j < 640, j ≠ i → diskTable d' j = t j
  contents : ∀ j < 640, (t j).Live → ∀ k < (t j).size.toNat, content d' (t j) k = content d (t j) k
  extents : ExtentsOk d.sectorCount (diskTable d')

theorem TableOk.freed {sc : ℕ} (h : TableOk sc s) (hi : i < 640) :
    Freed s.drive s.table (saveFileTable s.drive (s.table.clear i)) i := by
  obtain ⟨rfl, h₁, h₂, hx⟩ := h
  have htable : ∀ j < 640,
      diskTable (saveFileTable s.drive (s.table.clear i)) j = s.table.clear i j := fun j hj =>
    diskTable_save _ (by omega) h₂ hj
  refine ⟨by simp, ?_, fun j hj hji => ?_, fun j hj hl k hk => ?_, (hx.clear i).congr htable⟩
  · rw [htable i hi]
    simp [FileTable.clear, FileEntry.Live, magic]
  · rw [htable j hj, FileTable.clear_of_ne hji]
  · exact content_save _ (hx.bounds hj hl hk).2.1

namespace Freed

theorem ne_of_live (h : Freed d t d' i) (hl : (diskTable d' j).Live) : j ≠ i := by
  rintro rfl
  exact h.gone hl

end Freed

/-! ## Taking an entry out of its folder -/

/-- Drive `d'` holds what `d` does under table `t`, but entry `i` is free, and folder `q` does not list it.
What `t` has for `i` does not matter. -/
structure Removed (d : Drive) (t : FileTable) (d' : Drive) (q i : ℕ) : Prop where
  sectors : d'.sectorCount = d.sectorCount
  extents : ExtentsOk d.sectorCount (diskTable d')
  gone : ¬ (diskTable d' i).Live
  entry : ∀ j < 640, j ≠ i → ((diskTable d' j).Live ↔ (t j).Live) ∧ (diskTable d' j).type = (t j).type
  entries : dirEntries d' (diskTable d' q) = (dirEntries d (t q)).filter fun x => x.2 ≠ i
  others : ∀ j < 640, j ≠ i → j ≠ q → (t j).Live → diskTable d' j = t j ∧
    ∀ k < (t j).size.toNat, content d' (t j) k = content d (t j) k

/-- **What `filesystem_delete_file` and `filesystem_delete_directory` do in the end.** The table in memory
may differ from the one of the tree in entry `i`. -/
theorem TreeOk.unlinkEntry (h : TreeOk d t r) (hq : IsFolder t q) (hqi : q ≠ i) (hi : i < 640)
    {name : List UInt8} (hm : (name, i) ∈ dirEntries d (t q)) (ht : ∀ j < 640, j ≠ i → t' j = t j)
    (hx : ExtentsOk d.sectorCount t') {junk : Junk}
    (hres : resolvePath (junk.sub 0) d t' (splitPath path).1 = some q) :
    ∃ d', unlinkEntry junk ⟨d, t'⟩ path i = some (true, d') ∧ Removed d t d' q i := by
  obtain ⟨data, s', e, he, -, hentries⟩ :=
    h.removeFileFromDir_edited hq (ht q hq.1 hqi) hx (junk.sub 1) (canCut_of_mem hm)
  have hfreed := TableOk.freed ⟨he.sectors, h.le_sectors, h.sectors_le, he.extents⟩ hi
  refine ⟨saveFileTable s'.drive (s'.table.clear i), ?_, ?_⟩
  · unfold EitanOS.unlinkEntry
    dsimp only
    rw [hres]
    dsimp only
    rw [e]
    rfl
  · refine ⟨hfreed.sectors.trans he.sectors, he.sectors ▸ hfreed.extents, hfreed.gone,
      fun j hj hji => ?_, ?_, fun j hj hji hjq hl => ?_⟩
    · rw [hfreed.rest j hj hji, he.live_iff, he.type_eq]
      dsimp only
      rw [ht j hj hji]
      exact ⟨Iff.rfl, rfl⟩
    · have hlq : (s'.table q).Live := (he.live_iff q).2 he.live
      rw [hfreed.rest q hq.1 hqi, dirEntries_congr (hfreed.contents q hq.1 hlq), hentries, filter_take hm]
    · have hj' : s'.table j = t j := (he.table_of_ne hjq).trans (ht j hj hji)
      have hl' : (s'.table j).Live := by rwa [hj']
      refine ⟨(hfreed.rest j hj hji).trans hj', fun k hk => ?_⟩
      have h₁ := hfreed.contents j hj hl' k (by rwa [hj'])
      have h₂ := he.others j hj hjq ((he.live_iff j).1 hl') k
      dsimp only at h₂
      rw [ht j hj hji] at h₂
      rw [hj'] at h₁
      exact h₁.trans (h₂ hk)

namespace Removed

theorem ne_of_live (h : Removed d t d' q i) (hl : (diskTable d' j).Live) : j ≠ i := by
  rintro rfl
  exact h.gone hl

theorem isFolder_iff (h : Removed d t d' q i) (hfi : f ≠ i) :
    IsFolder (diskTable d') f ↔ IsFolder t f := by
  refine and_congr_right fun hlt => ?_
  obtain ⟨h₁, h₂⟩ := h.entry f hlt hfi
  rw [h₁, FileEntry.IsDir, FileEntry.IsRoot, h₂]

section Tree

variable {name : List UInt8} (h : Removed d t d' q i) (hok : TreeOk d t r) (hq : IsFolder t q)
  (hm : (name, i) ∈ dirEntries d (t q))
include h hok hq hm

/-- **Every folder lists what it did, but for `i`.** -/
theorem dirEntries_eq (hf : IsFolder (diskTable d') f) : IsFolder t f ∧
    dirEntries d' (diskTable d' f) = (dirEntries d (t f)).filter fun x => x.2 ≠ i := by
  have hfi := h.ne_of_live hf.2.1
  have hf' := (h.isFolder_iff hfi).1 hf
  refine ⟨hf', ?_⟩
  by_cases hfq : f = q
  · subst hfq
    exact h.entries
  · obtain ⟨heq, hbytes⟩ := h.others f hf.1 hfi hfq hf'.2.1
    rw [heq, dirEntries_congr hbytes]
    -- no other folder lists `i`
    refine (List.filter_eq_self.2 fun x hx => ?_).symm
    rw [← TreeOk.entries_eq (r := r) hf'] at hx
    rw [← TreeOk.entries_eq (r := r) hq] at hm
    rw [decide_eq_true_eq]
    exact fun hxi => hfq (hok.tree.parent f q x (name, i) (hok.folder_iff.2 hf') (hok.folder_iff.2 hq)
      hx hm hxi)

omit h in
theorem ne_root : i ≠ r := by
  rw [← TreeOk.entries_eq (r := r) hq] at hm
  exact hok.tree.root q (name, i) (hok.folder_iff.2 hq) hm

theorem root : (r < 640 ∧ (diskTable d' r).Live ∧ (diskTable d' r).IsRoot) ∧
    ∀ j < 640, (diskTable d' j).Live → (diskTable d' j).IsRoot → j = r := by
  obtain ⟨h₁, h₂⟩ := h.entry r hok.root.1 (ne_root hok hq hm).symm
  refine ⟨⟨hok.root.1, h₁.2 hok.root.2.1, h₂.trans hok.root.2.2⟩, fun j hj hl hr => ?_⟩
  obtain ⟨h₁, h₂⟩ := h.entry j hj (h.ne_of_live hl)
  exact hok.root_unique j hj (h₁.1 hl) (h₂.symm.trans hr)

/-- **The tree loses the entry.** -/
theorem detaches : Tree.Detaches (dirTree d t r) (dirTree d' (diskTable d') r) i := by
  obtain ⟨hr, hu⟩ := h.root hok hq hm
  refine ⟨rfl, fun j hj => ?_, fun hd => ?_, fun f hf => ?_, ne_root hok hq hm⟩
  · exact isDir_dirTree_congr fun hlt => h.entry j hlt hj
  · exact absurd (of_decide_eq_true hd).2.1 h.gone
  · rw [folder_dirTree hr hu] at hf
    obtain ⟨hf', he⟩ := h.dirEntries_eq hok hq hm hf
    rw [TreeOk.entries_eq hf, TreeOk.entries_eq hf', he]

theorem treeOk : TreeOk d' (diskTable d') r where
  le_sectors := h.sectors ▸ hok.le_sectors
  sectors_le := h.sectors ▸ hok.sectors_le
  root := (h.root hok hq hm).1
  root_unique := (h.root hok hq hm).2
  live f hf x hx := by
    obtain ⟨hf', he⟩ := h.dirEntries_eq hok hq hm hf
    rw [he, List.mem_filter, decide_eq_true_eq] at hx
    obtain ⟨hlt, hl⟩ := hok.live f hf' x hx.1
    exact ⟨hlt, (h.entry _ hlt hx.2).1.2 hl⟩
  names f hf x hx := by
    obtain ⟨hf', he⟩ := h.dirEntries_eq hok hq hm hf
    rw [he] at hx
    exact hok.names f hf' x (List.mem_filter.1 hx).1
  tree := (h.detaches hok hq hm).ok hok.tree
  extents := h.sectors ▸ h.extents

end Tree

end Removed

/-! ## An entry other than the root -/

/-- Between drives `d` and `d'`, entry `i` has been taken out of folder `q` and its slot freed. -/
structure Unlinked (d d' : Drive) (r i q : ℕ) : Prop where
  treeOk : TreeOk d' (diskTable d') r
  detaches : Tree.Detaches (dirTree d (diskTable d) r) (dirTree d' (diskTable d') r) i
  gone : ¬ (diskTable d' i).Live
  entry : ∀ j < 640, j ≠ i → ((diskTable d' j).Live ↔ (diskTable d j).Live) ∧
    (diskTable d' j).type = (diskTable d j).type
  folder : IsFolder (diskTable d) q
  others : ∀ j < 640, j ≠ i → j ≠ q → (diskTable d j).Live → diskTable d' j = diskTable d j ∧
    ∀ k < (diskTable d j).size.toNat, content d' (diskTable d j) k = content d (diskTable d j) k

theorem TreeOk.parent_of_entry (h : TreeOk d (diskTable d) r) {junk : Junk} (hv : isValidPath path = true)
    (e : resolve junk d path = some i) (hir : i ≠ r) :
    ∃ q, (∀ junk junk', resolvePath junk' d (loadFileTable junk d) (splitPath path).1 = some q) ∧
      IsFolder (diskTable d) q ∧ q ≠ i ∧
      ((splitPath path).2, i) ∈ dirEntries d (diskTable d q) := by
  have hp := h.path_of_resolve hv e
  have hne : path ≠ [slash] := by
    rintro rfl
    exact hir (hp.node_unique h.tree .root).symm
  obtain ⟨cs, q, hsplit, hdir, hpq, hq, hm⟩ := h.parent_of_resolve hv hne e
  refine ⟨q, fun junk junk' => ?_, hq, hpq.ne_of_append h.tree (hsplit ▸ hp), hm⟩
  obtain ⟨hhead, hcomp⟩ := validPath_parent hv
  rw [h.resolve_eq _ _ hhead hcomp, hdir]
  exact h.tree.walk_root.2 hpq

/-- **`filesystem_delete_file` on an entry other than the root** succeeds. -/
theorem DiskSound.deleteFile (h : DiskSound d r) {junk : Junk} (hv : isValidPath path = true)
    (e : resolve junk d path = some i) (hir : i ≠ r) :
    ∃ q d', deleteFile junk d path = some (true, d') ∧ Unlinked d d' r i q := by
  have hok := h.treeOk
  have ht : ∀ j < 640, loadFileTable (junk.sub 0) d j = diskTable d j := fun j hj =>
    hok.loadFileTable_eq _ hj
  have hi := (hok.live_of_path (hok.path_of_resolve hv e)).1
  obtain ⟨q, hres, hq, hqi, hm⟩ := hok.parent_of_entry hv e hir
  obtain ⟨d', hun, hrem⟩ := hok.unlinkEntry hq hqi hi hm (fun j hj _ => ht j hj)
    (hok.extents.congr ht) (hres (junk.sub 0) ((junk.sub 2).sub 0))
  refine ⟨q, d', ?_, hrem.treeOk hok hq hm, hrem.detaches hok hq hm, hrem.gone, hrem.entry, hq,
    hrem.others⟩
  unfold resolve at e
  unfold EitanOS.deleteFile
  dsimp only
  rw [if_pos hv, e]
  exact hun

namespace Unlinked

theorem isFolder_iff (h : Unlinked d d' r i q) (hfi : f ≠ i) :
    IsFolder (diskTable d') f ↔ IsFolder (diskTable d) f := by
  refine and_congr_right fun hlt => ?_
  obtain ⟨h₁, h₂⟩ := h.entry f hlt hfi
  rw [h₁, FileEntry.IsDir, FileEntry.IsRoot, h₂]

/-- **If nothing is below the entry, every other one keeps its path.** -/
theorem sound (h : Unlinked d d' r i q) (hd : DiskSound d r) (hi : Removable d i)
    {csp : List (List UInt8)} (hp : (dirTree d (diskTable d) r).Path csp i) : DiskSound d' r := by
  have hok := hd.treeOk
  refine ⟨h.treeOk, fun j hj hl => ?_⟩
  have hji : j ≠ i := by
    rintro rfl
    exact h.gone hl
  obtain ⟨cs, hcs⟩ := hd.path j hj ((h.entry j hj hji).1.1 hl)
  refine ⟨cs, (h.detaches.path hok.tree hp).2 ⟨hcs, ?_⟩⟩
  rintro ⟨rest, rfl⟩
  rw [hok.tree.path_append hp] at hcs
  refine hji (hcs.eq_of_leaf fun hf => ?_).2
  rw [hok.folder_iff] at hf
  rw [TreeOk.entries_eq hf]
  exact hi.2 hf

theorem mem_dirEntries (h : Unlinked d d' r i q) (hf : IsFolder (diskTable d) f) (hfi : f ≠ i)
    {x : List UInt8 × ℕ} :
    x ∈ dirEntries d' (diskTable d' f) ↔ x ∈ dirEntries d (diskTable d f) ∧ x.2 ≠ i := by
  have hf' := (h.isFolder_iff hfi).2 hf
  rw [← TreeOk.entries_eq (r := r) hf', ← TreeOk.entries_eq (r := r) hf]
  exact h.detaches.mem_entries (h.treeOk.folder_iff.2 hf')

theorem deletesOnly (h : Unlinked d d' r i q) (hd : DiskSound d r) {junk : Junk}
    (hv : isValidPath path = true) (e : resolve junk d path = some i) (hi : Removable d i)
    (hdel : deleteFile junk d path = some (true, d')) : DeletesOnly junk d path := by
  have hok := hd.treeOk
  have hp := hok.path_of_resolve hv e
  have hs := h.sound hd hi hp
  obtain ⟨hwf, hu⟩ := hs.wellFormed
  refine ⟨true, d', hdel, hwf, hu, fun f x hf hx hne => ?_, fun j hj hl hfile hne => ?_,
    fun _ => ⟨fun junk' => ?_, fun p hpv hpre junk₀ junk' => ?_⟩⟩
  · have hfi : f ≠ i := by
      rintro rfl
      rw [hi.2 hf] at hx
      exact absurd hx List.not_mem_nil
    refine ⟨(h.isFolder_iff hfi).2 hf, (h.mem_dirEntries hf hfi).2 ⟨hx, fun hxi => hne ?_⟩⟩
    rw [e, hxi]
  · have hji : j ≠ i := by
      rintro rfl
      exact hne e
    have hjq : j ≠ q := by
      rintro rfl
      exact h.folder.not_isFile hfile
    exact h.others j hj hji hjq hl
  · rw [hs.treeOk.resolve_walk hv]
    exact h.detaches.walk_below hok.tree hp List.prefix_rfl
  · rw [hs.treeOk.resolve_walk hpv, hok.resolve_walk hpv]
    exact h.detaches.walk_other hok.tree hp hpre

/-- **What was in a folder that is deleted is lost.** -/
theorem not_wellFormed (h : Unlinked d d' r i q) (hok : TreeOk d (diskTable d) r)
    {cs : List (List UInt8)} (hp : (dirTree d (diskTable d) r).Path cs i)
    (hf : IsFolder (diskTable d) i) (hne : dirEntries d (diskTable d i) ≠ []) :
    ¬ WellFormed d' := by
  intro hwf
  obtain ⟨⟨name, c⟩, hc⟩ := List.exists_mem_of_ne_nil _ hne
  have hmem : (name, c) ∈ (dirTree d (diskTable d) r).entries i := by
    rwa [TreeOk.entries_eq hf]
  have hcp := Tree.Path.snoc hp (hok.folder_iff.2 hf) hmem
  have hci : c ≠ i := (hp.ne_of_append hok.tree hcp).symm
  have hcr : c ≠ r := hok.tree.root i (name, c) (hok.folder_iff.2 hf) hmem
  obtain ⟨hlt, hl⟩ := hok.live i hf _ hc
  obtain ⟨h₁, h₂⟩ := h.entry c hlt hci
  -- its folder would have listed it before, but that was `i`
  obtain ⟨f, j, hlist, -⟩ := hwf.listed c hlt (h₁.2 hl) fun hr =>
    hcr (hok.root_unique c hlt hl (h₂.symm.trans hr))
  have hfi : f ≠ i := by
    rintro rfl
    exact h.gone hlist.1.2.1
  have hf' := (h.isFolder_iff hfi).1 hlist.1
  obtain ⟨-, name', hj⟩ := hlist
  have hmem' := ((h.mem_dirEntries hf' hfi).1 (List.mem_of_getElem? hj)).1
  rw [← TreeOk.entries_eq (r := r) hf'] at hmem'
  exact hfi (hok.tree.parent f i _ _ (hok.folder_iff.2 hf') (hok.folder_iff.2 hf) hmem' hmem rfl)

end Unlinked

/-! ## The root -/

theorem TreeOk.canCut_root (h : TreeOk d t r) :
    CanCut (dirEntries d (t r)) r ↔ 2 ≤ (dirEntries d (t r)).length := by
  refine ⟨fun ⟨hne, hone⟩ => ?_, fun h₂ => canCut_of_two h₂ r⟩
  by_contra hlt
  obtain ⟨x, hx⟩ := List.length_eq_one_iff.1
    (Nat.le_antisymm (by omega) (List.length_pos_iff.2 hne) : (dirEntries d (t r)).length = 1)
  -- the root is in no folder
  have hm : x ∈ (dirTree d t r).entries r := by
    rw [TreeOk.entries_eq h.isFolder_root, hx]
    exact List.mem_singleton_self x
  exact h.tree.root r x (h.folder_iff.2 h.isFolder_root) hm (hone x hx)

/-- **Deleting `/`** does not return for a root with at most one entry, and frees the root otherwise. -/
theorem DiskSound.deleteFile_root (h : DiskSound d r) (junk : Junk) :
    EitanOS.deleteFile junk d [slash] = none ∧ (dirEntries d (diskTable d r)).length ≤ 1 ∨
      ∃ d', EitanOS.deleteFile junk d [slash] = some (true, d') ∧ ¬ WellFormed d' := by
  have hok := h.treeOk
  have ht : ∀ j < 640, loadFileTable (junk.sub 0) d j = diskTable d j := fun j hj =>
    hok.loadFileTable_eq _ hj
  obtain ⟨hload, -⟩ := hok.load ht
  have hroot : ∀ junk', resolvePath junk' d (loadFileTable (junk.sub 0) d) [slash] = some r :=
    fun junk' => hok.resolve_eq _ _ rfl (by simp [strSplit_slash])
  have hdel : EitanOS.deleteFile junk d [slash] =
      (EitanOS.removeFileFromDir ((junk.sub 2).sub 1) ⟨d, loadFileTable (junk.sub 0) d⟩ r r).map
        fun x => if x.1 then (true, saveFileTable x.2.drive (x.2.table.clear r))
          else (false, x.2.drive) := by
    have hsplit : (splitPath [slash]).1 = [slash] := rfl
    unfold EitanOS.deleteFile unlinkEntry
    dsimp only
    rw [if_pos (by decide), hroot]
    dsimp only
    rw [hsplit, hroot]
  rw [hdel, ← ht r hok.root.1]
  rcases hload.removeFileFromDir_eq hload.isFolder_root rfl ((junk.sub 2).sub 1) r with
    ⟨hnone, hnot⟩ | ⟨-, hn⟩
  · rw [hload.canCut_root] at hnot
    exact .inl ⟨by rw [hnone]; rfl, by omega⟩
  · obtain ⟨s', hrem, hcut⟩ := hload.removeFileFromDir hload.isFolder_root ((junk.sub 2).sub 1) hn
    obtain ⟨data, he⟩ := hcut.edited
    refine .inr ⟨_, by rw [hrem]; rfl, ?_⟩
    have hfreed := hcut.treeOk.tableOk.freed hok.root.1
    rintro ⟨⟨r', hlt, hl, hr, -⟩, -⟩
    have hne := hfreed.ne_of_live hl
    rw [hfreed.rest r' hlt hne] at hl hr
    rw [he.live_iff] at hl
    rw [FileEntry.IsRoot, he.type_eq] at hr
    exact hne (hload.root_unique r' hlt hl hr)

/-- **Deleting keeps the tree** exactly where the path names no root and no directory with entries. -/
theorem delete_keeps_tree (h : WellFormed d) (hu : RootUnlisted d) (h₁ : 642 ≤ d.sectorCount)
    (h₂ : d.sectorCount ≤ 65535) (hv : isValidPath path = true) (junk : Junk) :
    DeletesOnly junk d path ↔ ∀ i, resolve junk d path = some i → Removable d i := by
  obtain ⟨r, hd⟩ := h.sound hu h₁ h₂
  have hok := hd.treeOk
  cases e : resolve junk d path with
  | none =>
    refine iff_of_true ⟨false, d, ?_, h, hu, fun q x hq hx _ => ⟨hq, hx⟩,
      fun j _ _ _ _ => ⟨rfl, fun k _ => rfl⟩, by simp⟩ (by simp)
    unfold resolve at e
    unfold deleteFile
    dsimp only
    rw [if_pos hv, e]
  | some i =>
    simp only [Option.some.injEq, forall_eq']
    by_cases hir : i = r
    · subst hir
      obtain rfl := hok.resolve_root hv e
      refine iff_of_false ?_ fun hi => hi.1 hok.root.2.2
      rintro ⟨b, d', hdel, hwf, -⟩
      rcases hd.deleteFile_root junk with ⟨e', -⟩ | ⟨d'', e', hnot⟩
      · rw [e'] at hdel
        cases hdel
      · rw [e'] at hdel
        cases hdel
        exact hnot hwf
    · obtain ⟨q, d', hdel, hun⟩ := hd.deleteFile hv e hir
      have hp := hok.path_of_resolve hv e
      refine ⟨fun ⟨b, d'', hdel', hwf, _⟩ => ⟨fun hr => ?_, fun hf => ?_⟩, fun hi =>
        hun.deletesOnly hd hv e hi hdel⟩
      · obtain ⟨hlt, hl⟩ := hok.live_of_path hp
        exact hir (hok.root_unique i hlt hl hr)
      · by_contra hne
        rw [hdel] at hdel'
        cases hdel'
        exact hun.not_wellFormed hok hp hf hne hwf

/-- **Deleting `/`** on a drive with two files frees the root. -/
theorem delete_root_lost : WellFormed twoFiles ∧ RootUnlisted twoFiles ∧ 642 ≤ twoFiles.sectorCount ∧
    twoFiles.sectorCount ≤ 65535 ∧ isValidPath [47] = true ∧
    ∃ d', deleteFile zeroJunk twoFiles [47] = some (true, d') ∧ ¬ WellFormed d' := by
  obtain ⟨i, h⟩ := twoFiles_written
  have hok := h.sound.treeOk
  obtain ⟨hwf, hu⟩ := h.sound.wellFormed
  refine ⟨hwf, hu, hok.le_sectors, hok.sectors_le, by decide, ?_⟩
  refine (h.sound.deleteFile_root zeroJunk).resolve_left fun ⟨_, hlen⟩ => ?_
  rw [length_twoFiles] at hlen
  exact absurd hlen (by decide)

theorem delete_keeps_tree_one_file : DeletesOnly zeroJunk oneFile [47, 97] ∧
    ∃ d', deleteFile zeroJunk oneFile [47, 97] = some (true, d') := by
  obtain ⟨i, h⟩ := oneFile_written
  have hok := h.sound.treeOk
  obtain ⟨hwf, hu⟩ := h.sound.wellFormed
  have e := oneFile_resolve h zeroJunk
  have hir : i ≠ 0 := by
    rintro rfl
    exact hok.isFolder_root.not_isFile h.file
  obtain ⟨q, d', hdel, -⟩ := h.sound.deleteFile (by decide) e hir
  refine ⟨(delete_keeps_tree hwf hu hok.le_sectors hok.sectors_le (by decide) zeroJunk).mpr ?_,
    d', hdel⟩
  intro j hj
  cases e.symm.trans hj
  exact ⟨fun hr => absurd (h.file.symm.trans hr) (by decide), fun hf => absurd h.file hf.not_isFile⟩

end EitanOS
