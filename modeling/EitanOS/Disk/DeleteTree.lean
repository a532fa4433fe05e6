import EitanOS.Disk.Delete

/-!
# Deleting a directory

`filesystem_delete_directory` frees the entries of everything in the directory in memory. Then it takes
the directory out of its parent, as `filesystem_delete_file` does with a file.

* `Cleared t₀ t C`: table `t` is `t₀` with the entries in `C` free.
* **`TreeOk.freesSubtree`**: the recursion ends, and it frees what is below the directory and nothing
  else.
* `TreeOk.pruned`: the directory is then listed, but nothing is below it any more.
* **`delete_directory_exact`**: what the whole call does.
* **`deletion_finds_space`**: it never fails for lack of space, and neither does deleting a file.
-/

namespace EitanOS

open Bytes Names

/-- Entry `x` is entry `i`, or listed somewhere inside it. -/
inductive Inside (d : Drive) (i : ℕ) : ℕ → Prop
  | here : Inside d i i
  | step {q j x} : Inside d i q → Lists d q j x → Inside d i x

variable {d d' : Drive} {t₀ t t' : FileTable} {C : Set ℕ} {r i j q x : ℕ} {path : List UInt8}
  {cs : List (List UInt8)} {junk : Junk}

/-! ## Free entries -/

/-- Table `t` is `t₀` with the entries in `C` free. -/
def Cleared (t₀ t : FileTable) (C : Set ℕ) : Prop :=
  ∀ j, (j ∈ C → t j = { t₀ j with magicNumber := 0 }) ∧ (j ∉ C → t j = t₀ j)

namespace Cleared

theorem refl (t : FileTable) : Cleared t t ∅ := fun j =>
  ⟨fun hj => absurd hj (Set.notMem_empty j), fun _ => rfl⟩

theorem unique (h : Cleared t₀ t C) (h' : Cleared t₀ t' C) : t = t' := by
  funext j
  by_cases hj : j ∈ C
  · rw [(h j).1 hj, (h' j).1 hj]
  · rw [(h j).2 hj, (h' j).2 hj]

theorem clear (h : Cleared t₀ t C) (i : ℕ) : Cleared t₀ (t.clear i) (insert i C) := by
  intro j
  by_cases hji : j = i
  · subst hji
    refine ⟨fun _ => ?_, fun hn => absurd (Set.mem_insert j C) hn⟩
    rw [FileTable.clear, Function.update_self]
    by_cases hj : j ∈ C
    · rw [(h j).1 hj]
    · rw [(h j).2 hj]
  · rw [FileTable.clear_of_ne hji, Set.mem_insert_iff, or_iff_right hji]
    exact h j

theorem live_iff (h : Cleared t₀ t C) : (t j).Live ↔ (t₀ j).Live ∧ j ∉ C := by
  by_cases hj : j ∈ C
  · rw [(h j).1 hj]
    exact iff_of_false (by simp [FileEntry.Live, magic]) fun hl => hl.2 hj
  · rw [(h j).2 hj]
    exact (and_iff_left hj).symm

end Cleared

/-! ## The recursion -/

theorem foldlM_range {α : Type*} {f : α → ℕ → Option α} {P : ℕ → α → Prop} {n : ℕ} {a : α}
    (h₀ : P 0 a) (hs : ∀ m < n, ∀ a, P m a → ∃ a', f a m = some a' ∧ P (m + 1) a') :
    ∃ a', (List.range n).foldlM f a = some a' ∧ P n a' := by
  induction n with
  | zero => exact ⟨a, rfl, h₀⟩
  | succ n ih =>
    obtain ⟨a₁, e₁, h₁⟩ := ih fun m hm => hs m (by omega)
    obtain ⟨a₂, e₂, h₂⟩ := hs n (by omega) a₁ h₁
    refine ⟨a₂, ?_, h₂⟩
    rw [List.range_succ, List.foldlM_append, e₁]
    simpa using e₂

theorem TreeOk.path_length (h : TreeOk d t r) (hp : (dirTree d t r).Path cs x) : cs.length < 640 := by
  have hlt := hp.length_lt h.tree (List.range 640) fun cs x hx =>
    List.mem_range.2 (h.live_of_path hx).1
  rwa [List.length_range] at hlt

theorem TreeOk.name_ne (h : TreeOk d t r) (hq : IsFolder t q) {m : ℕ} (hm : m < (dirEntries d (t q)).length)
    {y : List UInt8 × ℕ} (hy : y ∈ (dirEntries d (t q)).take m) : y.1 ≠ (dirEntries d (t q))[m].1 := by
  have hn := h.tree.names q (h.folder_iff.2 hq)
  rw [entries_eq hq, List.Nodup, List.pairwise_map, List.pairwise_iff_getElem] at hn
  obtain ⟨k, hk, rfl⟩ := List.mem_take_iff_getElem.1 hy
  exact hn k m _ hm (by omega)

theorem TreeOk.freesEntry (h : TreeOk d t₀ r) {fuel dir m : ℕ} (hp : (dirTree d t₀ r).Path cs dir)
    (hf : IsFolder t₀ dir) (hm : m < (dirEntries d (t₀ dir)).length)
    (hc : Cleared t₀ t (C ∪ (dirTree d t₀ r).cover cs ((dirEntries d (t₀ dir)).take m)))
    (hd : Disjoint C ((dirTree d t₀ r).subtree cs))
    (hrec : ∀ C y, y ∈ dirEntries d (t₀ dir) → IsFolder t₀ y.2 → Cleared t₀ t C →
      Disjoint C ((dirTree d t₀ r).subtree (cs ++ [y.1])) →
      ∃ t', deleteDirectoryEntriesRecursive d fuel junk t y.2 = some t' ∧
        Cleared t₀ t' (C ∪ (dirTree d t₀ r).subtree (cs ++ [y.1]) \ {y.2})) {i : ℕ}
    (hi : i = (dirEntries d (t₀ dir))[m].2) :
    ∃ t', (if (t i).Live then
        if (t i).IsDir then
          (deleteDirectoryEntriesRecursive d fuel junk t i).map fun t => t.clear i
        else some (t.clear i)
      else some t) = some t' ∧
      Cleared t₀ t' (C ∪ (dirTree d t₀ r).cover cs ((dirEntries d (t₀ dir)).take (m + 1))) := by
  subst hi
  have hmem := List.getElem_mem hm
  have hne : ∀ y ∈ (dirEntries d (t₀ dir)).take m, y.1 ≠ (dirEntries d (t₀ dir))[m].1 := fun y hy =>
    h.name_ne hf hm hy
  rw [List.take_succ_eq_append_getElem hm, Tree.cover_append, Tree.cover_singleton, ← Set.union_assoc]
  generalize (dirEntries d (t₀ dir))[m] = y at hmem hne ⊢
  have hpy : (dirTree d t₀ r).Path (cs ++ [y.1]) y.2 := by
    refine .snoc hp (h.folder_iff.2 hf) ?_
    rwa [entries_eq hf]
  have hdis : Disjoint (C ∪ (dirTree d t₀ r).cover cs ((dirEntries d (t₀ dir)).take m))
      ((dirTree d t₀ r).subtree (cs ++ [y.1])) :=
    Set.disjoint_union_left.2 ⟨hd.mono_right (Tree.subtree_mono _), h.tree.disjoint_cover hne⟩
  have hy : t y.2 = t₀ y.2 := (hc y.2).2 fun hC => Set.disjoint_left.1 hdis hC hpy.mem_subtree
  obtain ⟨hlt, hl⟩ := h.live dir hf y hmem
  -- what is below the entry is freed first
  have hbelow : ∃ t₁, (if (t y.2).IsDir then
        (deleteDirectoryEntriesRecursive d fuel junk t y.2).map fun t => t.clear y.2
      else some (t.clear y.2)) = some (t₁.clear y.2) ∧
      Cleared t₀ t₁ (C ∪ (dirTree d t₀ r).cover cs ((dirEntries d (t₀ dir)).take m) ∪
        (dirTree d t₀ r).subtree (cs ++ [y.1]) \ {y.2}) := by
    rw [hy]
    split_ifs with hdir
    · obtain ⟨t₁, e, hc₁⟩ := hrec _ y hmem ⟨hlt, hl, .inl hdir⟩ hc hdis
      exact ⟨t₁, by rw [e]; rfl, hc₁⟩
    · have hnot : ¬ (dirTree d t₀ r).Folder y.2 := by
        rintro (hr | hr)
        · rw [← entries_eq (r := r) hf] at hmem
          exact h.tree.root dir y (h.folder_iff.2 hf) hmem hr
        · exact hdir (of_decide_eq_true hr).2.2
      refine ⟨t, rfl, ?_⟩
      rwa [h.tree.subtree_of_not_folder hpy hnot, Set.sdiff_self, Set.union_empty]
  obtain ⟨t₁, e, hc₁⟩ := hbelow
  refine ⟨t₁.clear y.2, ?_, ?_⟩
  · rw [if_pos (by rwa [hy])]
    exact e
  · have hcl := hc₁.clear y.2
    rwa [← Set.union_insert, Set.insert_sdiff_singleton, Set.insert_eq_of_mem hpy.mem_subtree] at hcl

/-- **`delete_directory_entries_recursive` ends, and frees what is below the directory.** The names that
lead there and the bound on the depth together are as many as there are entries: the nodes on a path
differ. -/
theorem TreeOk.freesSubtree (h : TreeOk d t₀ r) (fuel : ℕ) {dir : ℕ} (hp : (dirTree d t₀ r).Path cs dir)
    (hf : IsFolder t₀ dir) (hfuel : 640 ≤ cs.length + fuel) (hc : Cleared t₀ t C)
    (hd : Disjoint C ((dirTree d t₀ r).subtree cs)) (junk : Junk) :
    ∃ t', deleteDirectoryEntriesRecursive d fuel junk t dir = some t' ∧
      Cleared t₀ t' (C ∪ (dirTree d t₀ r).subtree cs \ {dir}) := by
  induction fuel generalizing junk t cs dir C with
  | zero => exact absurd (h.path_length hp) (by omega)
  | succ fuel ih =>
    have hdir : t dir = t₀ dir := (hc dir).2 fun hC => Set.disjoint_left.1 hd hC hp.mem_subtree
    have hlen := length_dirEntries d (t₀ dir)
    rw [← h.tree.cover_entries hp (h.folder_iff.2 hf), entries_eq hf, deleteDirectoryEntriesRecursive]
    dsimp only
    rw [hdir]
    have hstart : Cleared t₀ t (C ∪ (dirTree d t₀ r).cover cs ((dirEntries d (t₀ dir)).take 0)) := by
      simpa [Tree.cover] using hc
    split_ifs with h₀
    · -- a directory of size 0 has no entries
      rw [h₀] at hlen
      rw [List.eq_nil_of_length_eq_zero hlen] at hstart ⊢
      exact ⟨t, rfl, hstart⟩
    · rw [← List.take_of_length_le hlen.le]
      refine foldlM_range (P := fun m t => Cleared t₀ t (C ∪ (dirTree d t₀ r).cover cs
        ((dirEntries d (t₀ dir)).take m))) hstart fun m hm t hc => ?_
      refine h.freesEntry hp hf (hlen ▸ hm) hc hd (fun C y hy hfy hc hd => ?_) ?_
      · refine ih (.snoc hp (h.folder_iff.2 hf) ?_) hfy ?_ hc hd _
        · rwa [entries_eq hf]
        · rw [List.length_append, List.length_singleton]
          omega
      · rw [(entry_congr (fun k hk => h.readSectors_folder hf hk) hm).2]
        simp [dirEntries]

/-- **What is in a directory is freed**, with the same result for every bound on the depth. -/
theorem TreeOk.freesDirectory (h : TreeOk d t₀ r) (hp : (dirTree d t₀ r).Path cs i) (hf : IsFolder t₀ i)
    (junk : Junk) : ∃ t, (∀ fuel, 640 ≤ fuel →
        deleteDirectoryEntriesRecursive d fuel junk t₀ i = some t) ∧
      Cleared t₀ t ((dirTree d t₀ r).subtree cs \ {i}) := by
  have hrec : ∀ fuel, 640 ≤ fuel → ∃ t, deleteDirectoryEntriesRecursive d fuel junk t₀ i = some t ∧
      Cleared t₀ t ((dirTree d t₀ r).subtree cs \ {i}) := by
    intro fuel hfuel
    have hfree := h.freesSubtree fuel hp hf (by omega) (.refl t₀) (Set.empty_disjoint _) junk
    rwa [Set.empty_union] at hfree
  obtain ⟨t, -, hc⟩ := hrec 640 le_rfl
  refine ⟨t, fun fuel hfuel => ?_, hc⟩
  obtain ⟨t', e, hc'⟩ := hrec fuel hfuel
  rw [e, hc.unique hc']

/-! ## The directory without what was in it -/

section Pruned

variable {csp : List (List UInt8)} (h : TreeOk d t₀ r) (hp : (dirTree d t₀ r).Path csp i)
  (hne : csp ≠ []) (hc : Cleared t₀ t ((dirTree d t₀ r).subtree csp \ {i}))

include hc in
theorem Cleared.asFile_live : (t.asFile i j).Live ↔
    (t₀ j).Live ∧ (j ∈ (dirTree d t₀ r).subtree csp → j = i) := by
  by_cases hji : j = i
  · subst hji
    rw [FileTable.asFile_self]
    show (t j).Live ↔ _
    simp [hc.live_iff]
  · simp [FileTable.asFile_of_ne hji, hc.live_iff, hji]

include hp hc in
theorem Cleared.asFile_eq (hj : j ∉ (dirTree d t₀ r).subtree csp) : t.asFile i j = t₀ j := by
  have hji : j ≠ i := by
    rintro rfl
    exact hj hp.mem_subtree
  rw [FileTable.asFile_of_ne hji]
  exact (hc j).2 fun hC => hj hC.1

include hp hc in
theorem Cleared.asFile_folder : IsFolder (t.asFile i) q ↔
    IsFolder t₀ q ∧ q ∉ (dirTree d t₀ r).subtree csp := by
  constructor
  · intro hq
    have hqi : q ≠ i := by
      rintro rfl
      exact not_isFolder_asFile hq
    have hnot : q ∉ (dirTree d t₀ r).subtree csp := fun hs => hqi ((hc.asFile_live.1 hq.2.1).2 hs)
    exact ⟨(isFolder_congr (hc.asFile_eq hp hnot)).1 hq, hnot⟩
  · rintro ⟨hq, hnot⟩
    exact (isFolder_congr (hc.asFile_eq hp hnot)).2 hq

include h hne in
theorem TreeOk.root_notMem_subtree : r ∉ (dirTree d t₀ r).subtree csp := by
  have hroot : (dirTree d t₀ r).Path [] r := .root
  rw [hroot.mem_subtree_iff h.tree, List.prefix_nil]
  exact hne

include h hp hne hc in
theorem TreeOk.pruned_root : (r < 640 ∧ (t.asFile i r).Live ∧ (t.asFile i r).IsRoot) ∧
    ∀ j < 640, (t.asFile i j).Live → (t.asFile i j).IsRoot → j = r := by
  rw [hc.asFile_eq hp (h.root_notMem_subtree hne)]
  refine ⟨h.root, fun j hj hl hr => ?_⟩
  have hf : IsFolder (t.asFile i) j := ⟨hj, hl, .inr hr⟩
  rw [hc.asFile_eq hp ((hc.asFile_folder hp).1 hf).2] at hl hr
  exact h.root_unique j hj hl hr

include h hp hne hc in
theorem TreeOk.prunes : Tree.Prunes (dirTree d t₀ r) (dirTree d (t.asFile i) r) csp := by
  obtain ⟨hr, hu⟩ := h.pruned_root hp hne hc
  have hiff : ∀ q, (dirTree d (t.asFile i) r).Folder q ↔
      (dirTree d t₀ r).Folder q ∧ q ∉ (dirTree d t₀ r).subtree csp := fun q => by
    rw [folder_dirTree hr hu, hc.asFile_folder hp, h.folder_iff]
  refine ⟨rfl, fun q hq => ?_, fun cs q hq hf => ?_⟩
  · obtain ⟨hf, hnot⟩ := (hiff q).1 hq
    refine ⟨hf, ?_⟩
    rw [entries_eq ((folder_dirTree hr hu).1 hq), entries_eq (h.folder_iff.1 hf), hc.asFile_eq hp hnot]
  · rw [hiff, and_iff_right hf, hq.mem_subtree_iff h.tree]

include h hp hne hc in
/-- **Once everything in the directory is free, the rest is a tree** in which the directory counts as a
file. -/
theorem TreeOk.pruned (hpath : ∀ j < 640, (t₀ j).Live → ∃ cs, (dirTree d t₀ r).Path cs j)
    (hx : ExtentsOk d.sectorCount t) : TreeOk d (t.asFile i) r where
  le_sectors := h.le_sectors
  sectors_le := h.sectors_le
  root := (h.pruned_root hp hne hc).1
  root_unique := (h.pruned_root hp hne hc).2
  live q hq y hy := by
    obtain ⟨hq', hnot⟩ := (hc.asFile_folder hp).1 hq
    rw [hc.asFile_eq hp hnot] at hy
    obtain ⟨hlt, hl⟩ := h.live q hq' y hy
    refine ⟨hlt, hc.asFile_live.2 ⟨hl, fun hs => ?_⟩⟩
    -- a folder outside lists nothing inside but the directory
    obtain ⟨csq, hcsq⟩ := hpath q hq'.1 hq'.2.1
    have hm : (y.1, y.2) ∈ (dirTree d t₀ r).entries q := by rwa [entries_eq hq']
    have hpy := Tree.Path.snoc hcsq (h.folder_iff.2 hq') hm
    rw [hpy.mem_subtree_iff h.tree] at hs
    rcases List.prefix_concat_iff.1 hs with rfl | hs
    · exact hp.node_unique h.tree hpy
    · exact absurd ((hcsq.mem_subtree_iff h.tree).2 hs) hnot
  names q hq y hy := by
    obtain ⟨hq', hnot⟩ := (hc.asFile_folder hp).1 hq
    rw [hc.asFile_eq hp hnot] at hy
    exact h.names q hq' y hy
  tree := (h.prunes hp hne hc).ok h.tree
  extents := hx.asFile

include h hp hne hc in
/-- **A folder outside is found as before.** -/
theorem TreeOk.pruned_resolve (hpath : ∀ j < 640, (t₀ j).Live → ∃ cs, (dirTree d t₀ r).Path cs j)
    (hx : ExtentsOk d.sectorCount t) (hdir : (t₀ i).IsDir) (hhead : path.head? = some slash)
    (hcomp : ∀ c ∈ strSplit path slash, Component c)
    (hq : (dirTree d t₀ r).Path (strSplit path slash) q) (hshort : ¬ csp <+: strSplit path slash) :
    resolvePath junk d t path = some q := by
  have hok := h.pruned hp hne hc hpath hx
  have hpr := h.prunes hp hne hc
  have hroot : ¬ (t i).IsRoot := by
    rw [(hc i).2 fun hC => hC.2 rfl]
    exact fun hr => absurd (hdir.symm.trans hr) (by decide)
  rw [hok.resolvePath_sameBut (.asFile (fun _ _ => rfl) (h.live_of_path hp).1 hroot) hhead hcomp
    (fun csi hpi hpre => ?_)]
  · exact hok.tree.walk_root.2 (hpr.path.2 ⟨hq, fun hpre => absurd hpre hshort⟩)
  · rw [(hpr.path.1 hpi).1.unique h.tree hp] at hpre
    exact absurd hpre hshort

end Pruned

/-! ## The whole call -/

/-- Between drives `d` and `d'`, the subtree at `csp` is gone; everything else is as it was. -/
structure Cropped (d d' : Drive) (r : ℕ) (csp : List (List UInt8)) : Prop where
  sound : DiskSound d' r
  path : ∀ cs x, (dirTree d' (diskTable d') r).Path cs x ↔
    (dirTree d (diskTable d) r).Path cs x ∧ ¬ csp <+: cs
  live : ∀ j < 640, (diskTable d' j).Live ↔
    (diskTable d j).Live ∧ j ∉ (dirTree d (diskTable d) r).subtree csp
  type : ∀ j < 640, (diskTable d' j).Live → (diskTable d' j).type = (diskTable d j).type
  files : ∀ j < 640, (diskTable d' j).Live → (diskTable d j).IsFile → SameFile d d' j

/-- **What is left when the directory has been taken out of its parent `q`.** -/
theorem Removed.cropped (hrem : Removed d (t.asFile i) d' q i) (h : DiskSound d r)
    {csp : List (List UInt8)} (hp : (dirTree d (diskTable d) r).Path csp i)
    (ht : ∀ j < 640, t₀ j = diskTable d j) (hc : Cleared t₀ t ((dirTree d t₀ r).subtree csp \ {i}))
    (hok : TreeOk d (t.asFile i) r)
    (hpr : Tree.Prunes (dirTree d t₀ r) (dirTree d (t.asFile i) r) csp)
    (hq : IsFolder (t.asFile i) q) {name : List UInt8}
    (hm : (name, i) ∈ dirEntries d (t.asFile i q)) : Cropped d d' r csp := by
  have htree := (h.treeOk.load ht).2
  rw [← htree] at hp
  have hpath : ∀ cs x, (dirTree d' (diskTable d') r).Path cs x ↔
      (dirTree d (diskTable d) r).Path cs x ∧ ¬ csp <+: cs := by
    intro cs x
    rw [(hrem.detaches hok hq hm).path hok.tree (hpr.path.2 ⟨hp, fun _ => rfl⟩), hpr.path, htree]
    exact ⟨fun hx => ⟨hx.1.1, hx.2⟩, fun hx => ⟨⟨hx.1, fun e => absurd e hx.2⟩, hx.2⟩⟩
  have hlive : ∀ j < 640, (diskTable d' j).Live ↔
      (diskTable d j).Live ∧ j ∉ (dirTree d (diskTable d) r).subtree csp := by
    intro j hj
    rw [← htree, ← ht j hj]
    by_cases hji : j = i
    · subst hji
      exact iff_of_false hrem.gone fun hl => hl.2 hp.mem_subtree
    · rw [(hrem.entry j hj hji).1, hc.asFile_live, imp_iff_not hji]
  have heq : ∀ j < 640, (diskTable d' j).Live → t.asFile i j = diskTable d j := by
    intro j hj hl
    rw [hlive j hj, ← htree] at hl
    rw [hc.asFile_eq hp hl.2, ht j hj]
  refine ⟨⟨hrem.treeOk hok hq hm, fun j hj hl => ?_⟩, hpath, hlive, fun j hj hl => ?_,
    fun j hj hl hfile => ?_⟩
  · obtain ⟨hl, hnot⟩ := (hlive j hj).1 hl
    obtain ⟨cs, hcs⟩ := h.path j hj hl
    refine ⟨cs, (hpath cs j).2 ⟨hcs, fun hpre => hnot ?_⟩⟩
    exact (hcs.mem_subtree_iff h.treeOk.tree).2 hpre
  · rw [(hrem.entry j hj (hrem.ne_of_live hl)).2, heq j hj hl]
  · have hjq : j ≠ q := by
      rintro rfl
      rw [isFolder_congr (heq j hj hl)] at hq
      exact hq.not_isFile hfile
    have hl₀ := ((hlive j hj).1 hl).1
    have hothers := hrem.others j hj (hrem.ne_of_live hl) hjq
    rw [heq j hj hl] at hothers
    exact .of_eq hl₀ (hothers hl₀).1 (hothers hl₀).2

/-- **`filesystem_delete_directory`** on a directory succeeds, and its whole subtree is gone. -/
theorem DiskSound.deleteDirectory (h : DiskSound d r) (hv : isValidPath path = true)
    (e : resolve junk d path = some i) (hdir : (diskTable d i).IsDir) :
    ∃ d', (∀ fuel, 640 ≤ fuel → deleteDirectory fuel junk d path = some (true, d')) ∧
      Cropped d d' r (strSplit path slash) := by
  have hok := h.treeOk
  have ht : ∀ j < 640, loadFileTable (junk.sub 0) d j = diskTable d j := fun j hj =>
    hok.loadFileTable_eq _ hj
  obtain ⟨hload, htree⟩ := hok.load ht
  have hp := hok.path_of_resolve hv e
  obtain ⟨hi, hl⟩ := hok.live_of_path hp
  have hir : i ≠ r := by
    rintro rfl
    exact absurd (hdir.symm.trans hok.root.2.2) (by decide)
  have hne : path ≠ [slash] := by
    rintro rfl
    exact hir (hp.node_unique hok.tree .root).symm
  obtain ⟨cs, q, hsplit, hparent, hpq, hq, hm⟩ := hok.parent_of_resolve hv hne e
  have hshort : ¬ strSplit path slash <+: cs := by
    intro hpre
    have hlen := hpre.length_le
    rw [hsplit, List.length_append, List.length_singleton] at hlen
    omega
  have hqi : q ≠ i := hpq.ne_of_append hok.tree (hsplit ▸ hp)
  generalize htab : loadFileTable (junk.sub 0) d = t₀ at ht hload htree
  have hp₀ := hp
  have hpq₀ := hpq
  rw [← htree] at hp₀ hpq₀
  have hnil : strSplit path slash ≠ [] := by
    rw [hsplit]
    simp
  have hfolder : IsFolder t₀ i := (isFolder_congr (ht i hi)).2 ⟨hi, hl, .inl hdir⟩
  obtain ⟨t, hfree, hc⟩ := hload.freesDirectory hp₀ hfolder (junk.sub 2)
  have hx := deleteDirectoryEntriesRecursive_extents hload.extents (hfree 640 le_rfl)
  have hpath : ∀ j < 640, (t₀ j).Live → ∃ cs, (dirTree d t₀ r).Path cs j := by
    intro j hj hlj
    rw [ht j hj] at hlj
    rw [htree]
    exact h.path j hj hlj
  have hok₁ := hload.pruned hp₀ hnil hc hpath hx
  have hpr := hload.prunes hp₀ hnil hc
  -- the parent is found as before
  have hqnot : q ∉ (dirTree d t₀ r).subtree (strSplit path slash) := by
    rwa [hpq₀.mem_subtree_iff hload.tree]
  have heq : t.asFile i q = diskTable d q := (hc.asFile_eq hp₀ hqnot).trans (ht q hq.1)
  have hq₁ : IsFolder (t.asFile i) q := (isFolder_congr heq).2 hq
  have hdir₀ : (t₀ i).IsDir := by rwa [ht i hi]
  obtain ⟨hhead, hcomp⟩ := validPath_parent hv
  have hres : resolvePath ((junk.sub 3).sub 0) d t (splitPath path).1 = some q :=
    hload.pruned_resolve hp₀ hnil hc hpath hx hdir₀ hhead hcomp (hparent ▸ hpq₀) (hparent ▸ hshort)
  have hm₁ : ((splitPath path).2, i) ∈ dirEntries d (t.asFile i q) := by rwa [heq]
  obtain ⟨d', hun, hrem⟩ := hok₁.unlinkEntry hq₁ hqi hi hm₁
    (fun j _ hji => (FileTable.asFile_of_ne hji).symm) hx hres
  refine ⟨d', fun fuel hfuel => ?_, hrem.cropped h hp ht hc hok₁ hpr hq₁ hm₁⟩
  unfold resolve at e
  rw [htab] at e
  unfold EitanOS.deleteDirectory
  dsimp only
  rw [if_pos hv, htab, e]
  dsimp only
  rw [ht i hi, if_pos hdir, hfree fuel hfuel]
  exact hun

theorem TreeOk.inside_iff (h : TreeOk d (diskTable d) r) (hp : (dirTree d (diskTable d) r).Path cs i) :
    Inside d i x ↔ x ∈ (dirTree d (diskTable d) r).subtree cs := by
  constructor
  · intro hx
    induction hx with
    | here => exact hp.mem_subtree
    | step _ hl ih =>
      obtain ⟨rest, hq⟩ := ih
      obtain ⟨name, hm⟩ := hl.mem_entries (r := r)
      refine ⟨rest ++ [name], ?_⟩
      rw [← List.append_assoc]
      exact .snoc hq (h.folder_iff.2 hl.1) hm
  · rintro ⟨rest, hx⟩
    rw [h.tree.path_append hp] at hx
    induction hx with
    | here => exact .here
    | snoc _ hq hm ih =>
      rw [h.folder_iff] at hq
      rw [entries_eq hq] at hm
      obtain ⟨j, hj⟩ := Lists.mem hq hm
      exact .step ih hj

/-- **Deleting a directory is exact**: the call returns true, whatever bound there is on the depth of its
recursion from 640 on; the entries that are gone are the directory and what is inside it, and so are
their paths; every other path leads to the same entry, of the same type and, for a file, with the same
content. -/
theorem delete_directory_exact (h : WellFormed d) (hu : RootUnlisted d) (h₁ : 642 ≤ d.sectorCount)
    (h₂ : d.sectorCount ≤ 65535) (hv : isValidPath path = true) (e : resolve junk d path = some i)
    (hdir : (diskTable d i).IsDir) :
    ∃ d', (∀ fuel, 640 ≤ fuel → deleteDirectory fuel junk d path = some (true, d')) ∧
      WellFormed d' ∧ RootUnlisted d' ∧
      (∀ j < 640, (diskTable d' j).Live ↔ (diskTable d j).Live ∧ ¬ Inside d i j) ∧
      (∀ p, isValidPath p = true → strSplit path slash <+: strSplit p slash →
        ∀ junk', resolve junk' d' p = none) ∧
      ∀ p, isValidPath p = true → ¬ strSplit path slash <+: strSplit p slash →
        (∀ junk₀ junk', resolve junk' d' p = resolve junk₀ d p) ∧
        ∀ j, resolve junk d p = some j → (diskTable d' j).Live ∧
          (diskTable d' j).type = (diskTable d j).type ∧ ((diskTable d j).IsFile → SameFile d d' j) := by
  obtain ⟨r, hd⟩ := h.sound hu h₁ h₂
  have hok := hd.treeOk
  obtain ⟨d', hdel, hcrop⟩ := hd.deleteDirectory hv e hdir
  have hok' := hcrop.sound.treeOk
  obtain ⟨hwf, hu'⟩ := hcrop.sound.wellFormed
  refine ⟨d', hdel, hwf, hu', fun j hj => ?_, fun p hpv hpre junk' => ?_, fun p hpv hpre =>
    ⟨fun junk₀ junk' => ?_, fun j hj => ?_⟩⟩
  · rw [hcrop.live j hj, hok.inside_iff (hok.path_of_resolve hv e)]
  · rw [Option.eq_none_iff_forall_ne_some]
    intro x hx
    rw [hok'.resolve_iff hpv, hcrop.path] at hx
    exact hx.2 hpre
  · apply Option.ext
    intro x
    rw [hok'.resolve_iff hpv, hok.resolve_iff hpv, hcrop.path, and_iff_left hpre]
  · have hp := hok.path_of_resolve hpv hj
    obtain ⟨hlt, hl⟩ := hok.live_of_path hp
    have hl' : (diskTable d' j).Live := by
      rw [hcrop.live j hlt, hp.mem_subtree_iff hok.tree]
      exact ⟨hl, hpre⟩
    exact ⟨hl', hcrop.type j hlt hl', hcrop.files j hlt hl'⟩

/-- A drive with a directory, `/a`. -/
def oneDir : Drive := driveAfter (createDirectory zeroJunk freshDrive [47, 97])

/-- The table of `oneDir`. -/
def oneDirTable : FileTable :=
  Function.update (Function.update rootTable 1 ⟨magic, FileType.directory.code, 641, 0⟩) 0
    ⟨magic, FileType.rootDirectory.code, 641, 64⟩

theorem createDirectory_oneDir : createDirectory zeroJunk freshDrive [47, 97] = (true, oneDir) ∧
    oneDir.sectorCount = freshDrive.sectorCount ∧ ∀ j < 640, diskTable oneDir j = oneDirTable j := by
  have hspace : findSpaceForFile freshDrive rootTable 0 = some 641 := findSpaceForFile_zero _ _
  have hslot : findFileEntrySlot rootTable = some 1 := by decide +kernel
  have hdir : findSpaceForFile freshDrive (FileTable.clear (Function.update rootTable 1
      ⟨magic, FileType.directory.code, 641, 0⟩) 0) 64 = some 641 := by decide +kernel
  have hv : isValidPath [47, 97] = true := by decide
  obtain ⟨d', e, h⟩ := writeFile_freshDrive hv (by decide) rfl (.of_ne (by decide))
    (createdTable_eq hspace hslot rfl rfl hdir) fun _ => 0
  obtain rfl : oneDir = d' := driveAfter_eq e
  exact ⟨e, h⟩

theorem oneDir_sound : DiskSound oneDir 0 ∧
    (dirTree oneDir (diskTable oneDir) 0).walk 0 [[97]] = some 1 := by
  have hv : isValidPath [47, 97] = true := by decide
  have hd := freshDrive_sound
  have hnone : resolve zeroJunk freshDrive [47, 97] = none :=
    (hd.treeOk.resolve_walk hv).trans (walk_freshDrive [97] [])
  have hq : resolve zeroJunk freshDrive (splitPath [47, 97]).1 = some 0 :=
    hd.treeOk.resolve_eq _ _ rfl (validPath_parent hv).2
  obtain ⟨hs, i, hp, hdir⟩ := hd.createDirectory hv (by decide) hnone hq hd.treeOk.isFolder_root
    createDirectory_oneDir.1
  obtain ⟨hi, -⟩ := hs.treeOk.live_of_path hp
  obtain rfl : i = 1 := by
    by_contra h₁
    rw [createDirectory_oneDir.2.2 i hi, oneDirTable] at hdir
    by_cases h₀ : i = 0
    · subst h₀
      exact absurd hdir (by decide)
    · rw [Function.update_of_ne h₀, Function.update_of_ne h₁, rootTable, if_neg h₀] at hdir
      exact absurd hdir (by decide)
  exact ⟨hs, hs.treeOk.tree.walk_root.2 hp⟩

/-- A drive with a directory `/a` that holds a file, `/a/b`. -/
def fileInDir : Drive := driveAfter (writeFile zeroJunk oneDir [47, 97, 47, 98] (fun _ => 7) .file 3)

theorem fileInDir_written : ∃ i, Written oneDir fileInDir 0 i [[97], [98]] (fun _ => 7) 3 := by
  obtain ⟨hs, hwalk⟩ := oneDir_sound
  have hok := hs.treeOk
  obtain ⟨-, hsec, htab⟩ := createDirectory_oneDir
  have hv : isValidPath [47, 97, 47, 98] = true := by decide
  have hq : resolve zeroJunk oneDir (splitPath [47, 97, 47, 98]).1 = some 1 := by
    rw [← hwalk]
    exact hok.resolve_eq _ _ rfl (validPath_parent hv).2
  have hfolder : IsFolder (diskTable oneDir) 1 := by
    rw [isFolder_congr (htab 1 (by decide))]
    exact ⟨by decide, rfl, .inl rfl⟩
  have hnone : resolve zeroJunk oneDir [47, 97, 47, 98] = none := by
    rw [Option.eq_none_iff_forall_ne_some]
    intro x hx
    obtain ⟨cs, q, -, rfl, hp, -, hm⟩ := hok.parent_of_resolve hv (by decide) hx
    -- the directory is empty
    obtain rfl := (hok.path_of_parent hv hq).node_unique hok.tree hp
    rw [htab 1 (by decide)] at hm
    cases hm
  have hspace : findSpaceForFile oneDir oneDirTable 3 = some 642 := by
    rw [findSpaceForFile_congr hsec fun _ _ => rfl]
    decide +kernel
  have hslot : findFileEntrySlot oneDirTable = some 2 := by decide +kernel
  have hdir : findSpaceForFile oneDir (FileTable.clear (Function.update oneDirTable 2
      ⟨magic, FileType.file.code, 642, 3⟩) 1) 64 = some 643 := by
    rw [findSpaceForFile_congr hsec fun _ _ => rfl]
    decide +kernel
  obtain ⟨d', e, -, -⟩ := (hok.writeFile_created (.of_ne (by decide)) hv hnone hq (fun _ => 7)
    fun j hj => (htab j hj).symm).2 _ (createdTable_eq hspace hslot rfl rfl hdir)
  obtain rfl : fileInDir = d' := driveAfter_eq e
  refine hs.writeFile (by decide) (fun q' hq' => ?_) (by decide) e
  obtain rfl : 1 = q' := Option.some.inj (hwalk.symm.trans hq')
  exact hfolder

theorem delete_directory_exact_file_in_dir : ∃ i d', resolve zeroJunk fileInDir [47, 97, 47, 98] = some i ∧
    deleteDirectory 640 zeroJunk fileInDir [47, 97] = some (true, d') ∧ WellFormed d' ∧
    ¬ (diskTable d' i).Live ∧ resolve zeroJunk d' [47, 97] = none ∧
    resolve zeroJunk d' [47, 97, 47, 98] = none := by
  obtain ⟨i, h⟩ := fileInDir_written
  have hok := h.sound.treeOk
  obtain ⟨hwf, hu⟩ := h.sound.wellFormed
  have hv : isValidPath [47, 97] = true := by decide
  have hv' : isValidPath [47, 97, 47, 98] = true := by decide
  have hi : resolve zeroJunk fileInDir [47, 97, 47, 98] = some i := (hok.resolve_walk hv').trans h.here
  have hq : resolve zeroJunk fileInDir [47, 97] = some 1 := by
    rw [hok.resolve_walk hv, ← oneDir_sound.2]
    exact h.elsewhere _ (by decide)
  have hdir : (diskTable fileInDir 1).IsDir := by
    have hp : (dirTree fileInDir (diskTable fileInDir) 0).Path [[97]] 1 := hok.path_of_resolve hv hq
    obtain ⟨cs, q, -, rfl, hp', hf, -⟩ := hok.parent_of_resolve hv' (by decide) hi
    obtain rfl := hp.node_unique hok.tree hp'
    refine hf.2.2.resolve_right fun hroot => ?_
    exact absurd (hok.root_unique 1 hf.1 hf.2.1 hroot) (by decide)
  obtain ⟨d', hdel, hwf', -, hlive, hgone, -⟩ := delete_directory_exact hwf hu hok.le_sectors
    hok.sectors_le hv hq hdir
  refine ⟨i, d', hi, hdel 640 le_rfl, hwf', fun hl => ?_, hgone _ hv List.prefix_rfl zeroJunk,
    hgone _ hv' ⟨[[98]], rfl⟩ zeroJunk⟩
  refine ((hlive i h.lt).1 hl).2 ?_
  rw [hok.inside_iff (hok.path_of_resolve hv hq)]
  exact ⟨[[98]], hok.path_of_resolve hv' hi⟩

/-! ## Space -/

/-- **Deleting never fails for lack of space**: the parent is rewritten with one entry less, and an edit
that needs no more sectors than its entry has finds space, in every table with its extents in order. -/
theorem deletion_finds_space (h : WellFormed d) (hu : RootUnlisted d) (h₁ : 642 ≤ d.sectorCount)
    (h₂ : d.sectorCount ≤ 65535) :
    (∀ junk path i, isValidPath path = true → path ≠ [slash] → resolve junk d path = some i →
      ∃ q, resolve junk d (splitPath path).1 = some q ∧
        (∀ junk', ∃ s', removeFileFromDir junk' ⟨d, loadFileTable (junk.sub 0) d⟩ q i = some (true, s')) ∧
        ∃ d', deleteFile junk d path = some (true, d')) ∧
    ∀ t, ExtentsOk d.sectorCount t → ∀ i < 640, (t i).Live → ∀ data size,
      (size + 511) / 512 ≤ ((t i).size.toNat + 511) / 512 →
        ∃ s', editFile ⟨d, t⟩ i data size = (true, s') := by
  obtain ⟨r, hd⟩ := h.sound hu h₁ h₂
  have hok := hd.treeOk
  refine ⟨fun junk path i hv hne e => ?_, fun t hx i hi hl data size hs => ?_⟩
  · have hir : i ≠ r := by
      rintro rfl
      exact hne (hok.resolve_root hv e)
    have ht : ∀ j < 640, loadFileTable (junk.sub 0) d j = diskTable d j := fun j hj =>
      hok.loadFileTable_eq _ hj
    obtain ⟨q, hres, hq, -, hm⟩ := hok.parent_of_entry hv e hir
    refine ⟨q, hres _ _, fun junk' => ?_, ?_⟩
    · obtain ⟨s', hrem, -⟩ := (hok.load ht).1.removeFileFromDir ((isFolder_congr (ht q hq.1)).2 hq)
        junk' (by rw [ht q hq.1]; exact canCut_of_mem hm)
      exact ⟨s', hrem⟩
    · obtain ⟨-, d', hdel, -⟩ := hd.deleteFile hv e hir
      exact ⟨d', hdel⟩
  · exact TableOk.editFile_shrink ⟨rfl, h₁, h₂, hx⟩ data hi hl hs

theorem deletion_finds_space_two_files :
    (∃ d', deleteFile zeroJunk twoFiles [47, 97] = some (true, d')) ∧
      ∃ s', editFile ⟨twoFiles, diskTable twoFiles⟩ 1 (fun _ => 8) 2 = (true, s') := by
  obtain ⟨i, h⟩ := twoFiles_written
  have hok := h.sound.treeOk
  obtain ⟨hwf, hu⟩ := h.sound.wellFormed
  obtain ⟨hdel, hedit⟩ := deletion_finds_space hwf hu hok.le_sectors hok.sectors_le
  have hv : isValidPath [47, 97] = true := by decide
  have hres : resolve zeroJunk twoFiles [47, 97] = some 1 := by
    obtain ⟨j, h₁⟩ := oneFile_written
    obtain rfl := oneFile_file h₁.lt h₁.file h₁.live
    rw [hok.resolve_walk hv, ← h₁.here]
    exact h.elsewhere _ (by decide)
  obtain ⟨-, -, -, hdel⟩ := hdel zeroJunk [47, 97] 1 hv (by decide) hres
  have hentry := writeFile_twoFiles.2 1 (by decide)
  refine ⟨hdel, hedit _ hok.extents 1 (by decide) ?_ _ 2 ?_⟩
  · rw [hentry]
    rfl
  · rw [hentry]
    decide

end EitanOS
