import EitanOS.Disk.WriteRead

/-!
# Rewriting a folder

`add_file_to_dir` and `remove_file_from_dir` rewrite a folder with `edit_file`.

* `Edited.dirTree_entries`, `Edited.isFolder_iff`: what such an edit does to the tree.
* **`TreeOk.removeFileFromDir`**: the folder then lists the entries that are not for `i`, cut to one
  less than before; there is always space for it.
* **`TreeOk.appended`**: it then lists one entry more, if it can be written.
-/

namespace EitanOS

open Bytes Names

variable {d d' : Drive} {t t' : FileTable} {s s' : Fs} {sc r i j q size k : ℕ} {data : Buf}

/-! ## What an edit leaves alone -/

namespace Edited

theorem isFolder_iff (h : Edited s s' q data size) : IsFolder s'.table j ↔ IsFolder s.table j := by
  unfold IsFolder FileEntry.IsDir FileEntry.IsRoot
  rw [h.live_iff, h.type_eq]

theorem dirEntries_of_ne (h : Edited s s' q data size) (hf : IsFolder s.table j) (hj : j ≠ q) :
    dirEntries s'.drive (s'.table j) = dirEntries s.drive (s.table j) := by
  rw [h.table_of_ne hj]
  exact dirEntries_congr (h.others j hf.1 hj hf.2.1)

theorem dirTree_isDir (h : Edited s s' q data size) :
    (dirTree s'.drive s'.table r).isDir = (dirTree s.drive s.table r).isDir := by
  funext j
  show decide _ = decide _
  unfold FileEntry.IsDir
  rw [decide_eq_decide, h.live_iff, h.type_eq]

theorem dirTree_entries (h : Edited s s' q data size) (hj : j ≠ q) :
    (dirTree s'.drive s'.table r).entries j = (dirTree s.drive s.table r).entries j := by
  show (if _ then _ else _) = if _ then _ else _
  by_cases hf : IsFolder s.table j
  · rw [if_pos hf, if_pos (h.isFolder_iff.2 hf), h.dirEntries_of_ne hf hj]
  · rw [if_neg hf, if_neg fun hf' => hf (h.isFolder_iff.1 hf')]

/-- **The tree is in order again** if the rewritten folder is. -/
theorem treeOk (h : Edited s s' q data size) (hok : TreeOk s.drive s.table r)
    (htree : (dirTree s'.drive s'.table r).Ok)
    (hlive : ∀ x ∈ dirEntries s'.drive (s'.table q), x.2 < 640 ∧ (s.table x.2).Live)
    (hnames : ∀ x ∈ dirEntries s'.drive (s'.table q), x.1 ≠ [] ∧ x.1.length < 60) :
    TreeOk s'.drive s'.table r where
  le_sectors := h.sectors ▸ hok.le_sectors
  sectors_le := h.sectors ▸ hok.sectors_le
  root := ⟨hok.root.1, (h.live_iff r).2 hok.root.2.1, (h.type_eq r).trans hok.root.2.2⟩
  root_unique j hj hl hr :=
    hok.root_unique j hj ((h.live_iff j).1 hl) ((h.type_eq j).symm.trans hr)
  live f hf x hx := by
    rw [h.live_iff]
    by_cases hfq : f = q
    · subst hfq
      exact hlive x hx
    · rw [h.isFolder_iff] at hf
      rw [h.dirEntries_of_ne hf hfq] at hx
      exact hok.live f hf x hx
  names f hf x hx := by
    by_cases hfq : f = q
    · subst hfq
      exact hnames x hx
    · rw [h.isFolder_iff] at hf
      rw [h.dirEntries_of_ne hf hfq] at hx
      exact hok.names f hf x hx
  tree := htree
  extents := h.sectors ▸ h.extents

end Edited

/-! ## Space for an edit -/

theorem TableOk.editFile_of_gap (h : TableOk sc s) (data : Buf) (hl : (s.table i).Live)
    (hs : size ≤ 2 ^ 32) {a : ℕ} (ha : 641 ≤ a) (hb : a + (size + 511) / 512 ≤ sc - 1)
    (hd : ∀ j, Occupied s.table j → j ≠ i →
      a + (size + 511) / 512 ≤ (s.table j).startSector.toNat ∨ (s.table j).stop ≤ a) :
    ∃ s', EitanOS.editFile s i data size = (true, s') := by
  have hsc := h.sectors
  have hspace : (findSpaceForFile s.drive (s.table.clear i) size).isSome := by
    refine findSpaceForFile_isSome (hsc ▸ h.extents.clear i) (hsc ▸ h.le_sectors)
      (hsc ▸ h.sectors_le) hs ha (hsc ▸ hb) fun j hj => ?_
    obtain ⟨ho, hne⟩ := hj.clear
    rw [FileTable.clear_of_ne hne]
    exact hd j ho hne
  obtain ⟨start, e⟩ := Option.isSome_iff_exists.1 hspace
  exact ⟨_, by rw [EitanOS.editFile, if_pos hl, e]⟩

/-- **An edit that needs no more sectors than the entry has succeeds**: it fits where the entry was. -/
theorem TableOk.editFile_shrink (h : TableOk sc s) (data : Buf) (hi : i < 640) (hl : (s.table i).Live)
    (hs : (size + 511) / 512 ≤ (s.table i).sectors) :
    ∃ s', EitanOS.editFile s i data size = (true, s') := by
  by_cases h₀ : (s.table i).size = 0
  · obtain rfl : size = 0 := by
      rw [FileEntry.sectors, h₀, UInt32.toNat_zero] at hs
      omega
    exact ⟨_, by rw [EitanOS.editFile, if_pos hl, findSpaceForFile_zero]⟩
  · have hocc : Occupied s.table i := ⟨hi, hl, h₀⟩
    have hlt := (s.table i).size.toNat_lt
    have hstop := h.extents.stop i hocc
    have hle : (s.table i).startSector.toNat + (size + 511) / 512 ≤ (s.table i).stop :=
      Nat.add_le_add_left hs _
    have hsize : size ≤ 2 ^ 32 := by
      unfold FileEntry.sectors at hs
      omega
    refine h.editFile_of_gap data hl hsize (h.extents.start i hocc) (hle.trans hstop) fun j hj hne => ?_
    have := h.extents.disjoint i j hocc hj (Ne.symm hne)
    omega

/-! ## `remove_file_from_dir` -/

theorem length_dirEntries (d : Drive) (e : FileEntry) :
    (dirEntries d e).length = e.size.toNat / 64 := by
  rw [dirEntries, List.length_map, List.length_range]

/-- **The entries that are kept**, cut to the size of the block for them. -/
theorem TreeOk.dirEntries_kept (h : TreeOk d t r) (hq : IsFolder t q) (ht : t' q = t q)
    (junk junk' : Junk) {m : ℕ} (hm : m ≤ ((dirEntries d (t q)).filter fun x => x.2 ≠ i).length)
    {e : FileEntry} (he : e.size.toNat = m * 64) (hc : ∀ k < m * 64, content d' e k =
      keepEntries junk' (EitanOS.loadEntries junk ⟨d, t'⟩ q) ((t q).size.toNat / 64) i k) :
    dirEntries d' e = ((dirEntries d (t q)).filter fun x => x.2 ≠ i).take m := by
  have hload : ∀ k < (t q).size.toNat, EitanOS.loadEntries junk ⟨d, t'⟩ q k = content d (t q) k :=
    fun k hk => h.loadEntries hq ht junk hk
  have hkept : (dirEntries d (t q)).filter (fun x => x.2 ≠ i) =
      ((List.range ((t q).size.toNat / 64)).filter fun j =>
        dirIndex (EitanOS.loadEntries junk ⟨d, t'⟩ q) j ≠ i).map fun j =>
          (nameAt (content d (t q)) j, dirIndex (content d (t q)) j) := by
    rw [dirEntries, List.filter_map]
    congr 1
    refine List.filter_congr fun j hj => ?_
    rw [(entry_congr hload (List.mem_range.1 hj)).2]
    rfl
  rw [hkept] at hm ⊢
  rw [List.length_map] at hm
  unfold keepEntries at hc
  generalize hK : (List.range ((t q).size.toNat / 64)).filter (fun j =>
    dirIndex (EitanOS.loadEntries junk ⟨d, t'⟩ q) j ≠ i) = K at hm hc ⊢
  have hKn : ∀ j ∈ K, j < (t q).size.toNat / 64 := fun j hj => by
    rw [← hK] at hj
    exact List.mem_range.1 (List.mem_filter.1 hj).1
  apply List.ext_getElem
  · rw [length_dirEntries, he, List.length_take, List.length_map]
    omega
  · intro j h₁ h₂
    rw [length_dirEntries, he, Nat.mul_div_cancel _ (by omega)] at h₁
    have hj := hKn K[j] (List.getElem_mem _)
    -- entry `j` on disk is entry `K[j]` of before
    have hb : ∀ k < 64, content d' e (64 * j + k) = content d (t q) (64 * K[j] + k) := by
      intro k hk
      rw [hc _ (by omega), Nat.mul_add_div (by omega), Nat.div_eq_of_lt hk, Nat.add_zero,
        List.getElem?_eq_getElem (by omega), Nat.mul_add_mod, Nat.mod_eq_of_lt hk]
      exact hload _ (by omega)
    rw [List.getElem_take, List.getElem_map]
    simp only [dirEntries, List.getElem_map, List.getElem_range]
    rw [nameAt_congr fun k hk => hb k (by omega), dirIndex_congr hb]

theorem TreeOk.length_filter (h : TreeOk d t r) (hq : IsFolder t q) (i : ℕ) :
    (dirEntries d (t q)).length ≤ ((dirEntries d (t q)).filter fun x => x.2 ≠ i).length + 1 := by
  have hn := h.tree.nodes q (h.folder_iff.2 hq)
  rw [entries_eq hq] at hn
  have hcount := List.nodup_iff_count_le_one.1 hn i
  rw [List.count, List.countP_map] at hcount
  rw [← List.countP_eq_length_filter,
    List.length_eq_countP_add_countP (fun x => x.2 ≠ i) (l := dirEntries d (t q))]
  refine Nat.add_le_add_left (le_trans (le_of_eq ?_) hcount) _
  refine List.countP_congr fun x _ => ?_
  simp

/-- `remove_file_from_dir` can take entry `i` out of these: there are some, and if there is only one, it
is the one for `i`. -/
def CanCut (l : List (List UInt8 × ℕ)) (i : ℕ) : Prop := l ≠ [] ∧ ∀ x, l = [x] → x.2 = i

theorem canCut_of_mem {l : List (List UInt8 × ℕ)} {name : List UInt8} (h : (name, i) ∈ l) :
    CanCut l i := by
  refine ⟨List.ne_nil_of_mem h, ?_⟩
  rintro x rfl
  exact congrArg Prod.snd (List.mem_singleton.1 h).symm

theorem canCut_of_two {l : List (List UInt8 × ℕ)} (h : 2 ≤ l.length) (i : ℕ) : CanCut l i := by
  refine ⟨?_, ?_⟩
  · rintro rfl
    exact absurd h (by decide)
  · rintro x rfl
    exact absurd h (by simp)

theorem TreeOk.dirIndex_zero (h : TreeOk d t r) (hq : IsFolder t q) (ht : t' q = t q) (junk : Junk)
    (hone : (t q).size.toNat / 64 = 1) :
    ∃ x, dirEntries d (t q) = [x] ∧ dirIndex (EitanOS.loadEntries junk ⟨d, t'⟩ q) 0 = x.2 := by
  refine ⟨_, by rw [dirEntries, hone]; rfl, ?_⟩
  exact (entry_congr (fun k hk => h.loadEntries hq ht junk hk) (by omega)).2

theorem TreeOk.removeFileFromDir_eq (h : TreeOk d t r) (hq : IsFolder t q) (ht : t' q = t q)
    (junk : Junk) (i : ℕ) :
    EitanOS.removeFileFromDir junk ⟨d, t'⟩ q i = none ∧ ¬ CanCut (dirEntries d (t q)) i ∨
      EitanOS.removeFileFromDir junk ⟨d, t'⟩ q i = some (editFile ⟨d, t'⟩ q
        (keepEntries (junk.sub 1) (EitanOS.loadEntries (junk.sub 0) ⟨d, t'⟩ q)
          ((t q).size.toNat / 64) i) (((t q).size.toNat / 64 - 1) * 64)) ∧
        CanCut (dirEntries d (t q)) i := by
  have hlen := length_dirEntries d (t q)
  unfold EitanOS.removeFileFromDir
  dsimp only
  rw [ht]
  split_ifs with hc
  · refine .inl ⟨rfl, ?_⟩
    rintro ⟨hne, hone⟩
    rcases hc with hc | ⟨hc, hi⟩
    · exact hne (List.length_eq_zero_iff.1 (hlen.trans hc))
    · obtain ⟨x, hx, e⟩ := h.dirIndex_zero hq ht (junk.sub 0) hc
      exact hi (e.trans (hone x hx))
  · rw [not_or, not_and_or, not_not] at hc
    refine .inr ⟨rfl, fun hnil => ?_, fun x hx => ?_⟩
    · rw [hnil] at hlen
      exact hc.1 hlen.symm
    · rw [hx] at hlen
      obtain ⟨x', hx', e⟩ := h.dirIndex_zero hq ht (junk.sub 0) hlen.symm
      rw [hx] at hx'
      cases hx'
      exact e.symm.trans (hc.2.resolve_left fun hne => hne hlen.symm)

/-- **`remove_file_from_dir`** succeeds where it can take the entry out: the folder is rewritten with one
entry less. The other entries of the table in memory need not be in order. -/
theorem TreeOk.removeFileFromDir_edited (h : TreeOk d t r) (hq : IsFolder t q) (ht : t' q = t q)
    (hx : ExtentsOk d.sectorCount t') (junk : Junk) (hn : CanCut (dirEntries d (t q)) i) :
    ∃ data s', removeFileFromDir junk ⟨d, t'⟩ q i = some (true, s') ∧
      Edited ⟨d, t'⟩ s' q data (((t q).size.toNat / 64 - 1) * 64) ∧
      findSpaceForFile d (t'.clear q) (((t q).size.toNat / 64 - 1) * 64) =
        some (s'.table q).startSector ∧
      dirEntries s'.drive (s'.table q) =
        ((dirEntries d (t q)).filter fun x => x.2 ≠ i).take ((dirEntries d (t q)).length - 1) := by
  have hcount := h.count_le hq
  have hlen := length_dirEntries d (t q)
  have hpos : 0 < (t q).size.toNat / 64 := hlen ▸ List.length_pos_iff.2 hn.1
  have htable : TableOk d.sectorCount ⟨d, t'⟩ := ⟨rfl, h.le_sectors, h.sectors_le, hx⟩
  have hle : (((t q).size.toNat / 64 - 1) * 64 + 511) / 512 ≤ (t' q).sectors := by
    rw [ht, FileEntry.sectors]
    omega
  obtain ⟨s', e⟩ := htable.editFile_shrink (keepEntries (junk.sub 1)
    (EitanOS.loadEntries (junk.sub 0) ⟨d, t'⟩ q) ((t q).size.toNat / 64) i) hq.1
    (ht.symm ▸ hq.2.1 : (t' q).Live) hle
  have he := editFile_spec htable hq.1 (by omega) e
  refine ⟨_, s', ?_, he, (editFile_edited htable hq.1 (.of_le (by omega)) e).2.1, ?_⟩
  · rcases h.removeFileFromDir_eq hq ht junk i with ⟨-, hnot⟩ | ⟨hrem, -⟩
    · exact absurd hn hnot
    · rw [hrem, e]
  · have hfilter := h.length_filter hq i
    rw [hlen] at hfilter ⊢
    exact h.dirEntries_kept hq ht _ _ (by omega) (he.size_eq (by omega)) he.self

/-- What `remove_file_from_dir` makes of folder `q`: it is rewritten with one entry less, in the first
place that fits. -/
structure Cut (d : Drive) (t : FileTable) (s' : Fs) (r q i : ℕ) : Prop where
  edited : ∃ data, Edited ⟨d, t⟩ s' q data (((t q).size.toNat / 64 - 1) * 64)
  place : findSpaceForFile d (t.clear q) (((t q).size.toNat / 64 - 1) * 64) =
    some (s'.table q).startSector
  treeOk : TreeOk s'.drive s'.table r
  entries : dirEntries s'.drive (s'.table q) =
    ((dirEntries d (t q)).filter fun x => x.2 ≠ i).take ((dirEntries d (t q)).length - 1)

theorem TreeOk.removeFileFromDir (h : TreeOk d t r) (hq : IsFolder t q) (junk : Junk)
    (hn : CanCut (dirEntries d (t q)) i) :
    ∃ s', removeFileFromDir junk ⟨d, t⟩ q i = some (true, s') ∧ Cut d t s' r q i := by
  obtain ⟨data, s', e, he, hplace, hl⟩ := h.removeFileFromDir_edited hq rfl h.extents junk hn
  have hsub : (dirEntries s'.drive (s'.table q)).Sublist (dirEntries d (t q)) := by
    rw [hl]
    exact (List.take_sublist _ _).trans List.filter_sublist
  refine ⟨s', e, ⟨_, he⟩, hplace, ?_, hl⟩
  refine he.treeOk h (h.tree.mono rfl (fun f hf => ?_) fun f hf => ?_)
    (fun x hx => h.live q hq x (hsub.subset hx)) fun x hx => h.names q hq x (hsub.subset hx)
  · exact hf.imp id fun hd => congrFun he.dirTree_isDir f ▸ hd
  · by_cases hfq : f = q
    · subst hfq
      rw [entries_eq (he.isFolder_iff.2 hq), entries_eq hq]
      exact hsub
    · rw [he.dirTree_entries hfq]

theorem filter_take {l : List (List UInt8 × ℕ)} {name : List UInt8} (hm : (name, i) ∈ l) :
    (l.filter fun x => x.2 ≠ i).take (l.length - 1) = l.filter fun x => x.2 ≠ i := by
  apply List.take_of_length_le
  have hlt : (l.filter fun x => x.2 ≠ i).length < l.length :=
    List.length_filter_lt_length_iff_exists.2 ⟨_, hm, by simp⟩
  omega

/-- **An entry is taken out of its folder.** -/
theorem Cut.detaches (hc : Cut d t s' r q i) (h : TreeOk d t r) (hq : IsFolder t q)
    {name : List UInt8} (hm : (name, i) ∈ dirEntries d (t q)) :
    Tree.Detaches (dirTree d t r) (dirTree s'.drive s'.table r) i := by
  obtain ⟨data, he⟩ := hc.edited
  have hm' : (name, i) ∈ (dirTree d t r).entries q := by
    rwa [TreeOk.entries_eq hq]
  have hdir := he.dirTree_isDir (r := r)
  refine ⟨rfl, fun j _ => congrFun hdir j, fun hi => congrFun hdir i ▸ hi, fun f hf => ?_,
    h.tree.root q _ (h.folder_iff.2 hq) hm'⟩
  by_cases hfq : f = q
  · subst hfq
    rw [TreeOk.entries_eq (he.isFolder_iff.2 hq), TreeOk.entries_eq hq, hc.entries, filter_take hm]
  · rw [he.dirTree_entries hfq]
    -- no other folder lists `i`
    refine (List.filter_eq_self.2 fun x hx => ?_).symm
    have hf' : (dirTree d t r).Folder f := hf.imp id fun hd => congrFun hdir f ▸ hd
    rw [decide_eq_true_eq]
    exact fun hxi => hfq (h.tree.parent f q x (name, i) hf' (h.folder_iff.2 hq) hx hm' hxi)

/-! ## `add_file_to_dir` -/

/-- What `add_file_to_dir` leaves on the drive, whether it succeeds (`ok`) or not: entry `q` may have
been moved, and if it is a folder, it has one entry more. -/
structure Appended (s : Fs) (d' : Drive) (q i : ℕ) (name : List UInt8) (ok : Bool) : Prop where
  sectors : d'.sectorCount = s.drive.sectorCount
  extents : ExtentsOk s.drive.sectorCount (diskTable d')
  entry : ∀ j < 640, ((diskTable d' j).Live ↔ (s.table j).Live) ∧
    (diskTable d' j).type = (s.table j).type
  rest : ∀ j < 640, j ≠ q → diskTable d' j = s.table j
  contents : ∀ j < 640, j ≠ q → (s.table j).Live → ∀ k < (s.table j).size.toNat,
    content d' (s.table j) k = content s.drive (s.table j) k
  entries : IsFolder s.table q → dirEntries d' (diskTable d' q) =
    dirEntries s.drive (s.table q) ++ if ok then [(name, i)] else []

/-- **`add_file_to_dir`**, for any entry. -/
theorem TreeOk.appended (h : TreeOk s.drive s.table r)
    (hsaved : ∀ j < 640, diskTable s.drive j = s.table j) (junk : Junk) (hq : q < 640)
    {name : List UInt8} (hn : name.length < 60) (h₀ : (0 : UInt8) ∉ name) (hi : i < 640) :
    Appended s (EitanOS.addFileToDir junk s q i name).2.drive q i name
      (EitanOS.addFileToDir junk s q i name).1 := by
  rcases e : EitanOS.addFileToDir junk s q i name with ⟨b, s'⟩
  cases b with
  | false =>
    have hs : s' = s := (congrArg Prod.snd e).symm.trans (addFileToDir_false (congrArg Prod.fst e))
    subst hs
    refine ⟨rfl, h.extents.congr hsaved, fun j hj => ?_, fun j hj _ => hsaved j hj,
      fun j _ _ _ k _ => rfl, fun _ => ?_⟩
    · rw [hsaved j hj]
      exact ⟨Iff.rfl, rfl⟩
    · rw [hsaved q hq]
      simp
  | true =>
    have hsize : ((s.table q).size.toNat / 64 + 1) * 64 ≤ 2 ^ 32 := by
      have := (s.table q).size.toNat_lt
      omega
    have e' := e
    unfold EitanOS.addFileToDir at e'
    have he := (editFile_edited h.tableOk hq (.of_le hsize) e').1
    refine ⟨he.sectors, he.extents.congr he.saved, fun j hj => ?_, fun j hj hjq => ?_,
      he.others, fun hf => ?_⟩
    · rw [he.saved j hj, he.live_iff, he.type_eq]
      exact ⟨Iff.rfl, rfl⟩
    · rw [he.saved j hj, he.table_of_ne hjq]
    · obtain ⟨-, -, -, hl⟩ := h.addFileToDir hf rfl h.extents h₀ hi e
      rw [he.saved q hq, hl, List.take_of_length_le (by omega)]
      rfl

namespace Appended

variable {name : List UInt8} {ok : Bool}

theorem isFolder_iff (h : Appended s d' q i name ok) :
    IsFolder (diskTable d') j ↔ IsFolder s.table j := by
  refine and_congr_right fun hlt => ?_
  obtain ⟨h₁, h₂⟩ := h.entry j hlt
  rw [h₁, FileEntry.IsDir, FileEntry.IsRoot, h₂]

theorem dirEntries_of_ne (h : Appended s d' q i name ok) (hf : IsFolder s.table j) (hj : j ≠ q) :
    dirEntries d' (diskTable d' j) = dirEntries s.drive (s.table j) := by
  rw [h.rest j hf.1 hj]
  exact dirEntries_congr (h.contents j hf.1 hj hf.2.1)

/-- **What folders list**: nothing new but the entry that was added. -/
theorem mem_dirEntries (h : Appended s d' q i name ok) (hf : IsFolder s.table j)
    {x : List UInt8 × ℕ} : x ∈ dirEntries d' (diskTable d' j) ↔
      x ∈ dirEntries s.drive (s.table j) ∨ j = q ∧ ok = true ∧ x = (name, i) := by
  by_cases hj : j = q
  · subst hj
    rw [h.entries hf, List.mem_append]
    cases ok <;> simp
  · rw [h.dirEntries_of_ne hf hj]
    simp [hj]

/-- **The tree has one more entry.** -/
theorem attaches (h : Appended s d' q i name true) (hok : TreeOk s.drive s.table r)
    (hq : IsFolder s.table q) (hname : ∀ x ∈ dirEntries s.drive (s.table q), x.1 ≠ name)
    (hfresh : ∀ f x, (dirTree s.drive s.table r).Folder f →
      x ∈ (dirTree s.drive s.table r).entries f → x.2 ≠ i) (hir : i ≠ r) :
    Tree.Attaches (dirTree s.drive s.table r) (dirTree d' (diskTable d') r) q name i where
  root := rfl
  isDir := by
    funext j
    exact isDir_dirTree_congr (h.entry j)
  entries := by
    rw [TreeOk.entries_eq hq, TreeOk.entries_eq (h.isFolder_iff.2 hq)]
    exact h.entries hq
  others f hf := by
    show (if _ then _ else _) = if _ then _ else _
    by_cases hfold : IsFolder s.table f
    · rw [if_pos hfold, if_pos (h.isFolder_iff.2 hfold), h.dirEntries_of_ne hfold hf]
    · rw [if_neg hfold, if_neg fun hf' => hfold (h.isFolder_iff.1 hf')]
  folder := hok.folder_iff.2 hq
  name := by
    rw [TreeOk.entries_eq hq]
    exact hname
  fresh := hfresh
  ne_root := hir

theorem treeOk (h : Appended s d' q i name ok) (hok : TreeOk s.drive s.table r)
    (htree : (dirTree d' (diskTable d') r).Ok) (hi : i < 640 ∧ (s.table i).Live)
    (hn : name ≠ [] ∧ name.length < 60) : TreeOk d' (diskTable d') r where
  le_sectors := h.sectors ▸ hok.le_sectors
  sectors_le := h.sectors ▸ hok.sectors_le
  root := by
    obtain ⟨h₁, h₂⟩ := h.entry r hok.root.1
    exact ⟨hok.root.1, h₁.2 hok.root.2.1, h₂.trans hok.root.2.2⟩
  root_unique j hj hl hr := by
    obtain ⟨h₁, h₂⟩ := h.entry j hj
    exact hok.root_unique j hj (h₁.1 hl) (h₂.symm.trans hr)
  live f hf x hx := by
    have hx' : x.2 < 640 ∧ (s.table x.2).Live := by
      rw [h.isFolder_iff] at hf
      rcases (h.mem_dirEntries hf).1 hx with hx | ⟨-, -, rfl⟩
      · exact hok.live f hf x hx
      · exact hi
    exact ⟨hx'.1, (h.entry x.2 hx'.1).1.2 hx'.2⟩
  names f hf x hx := by
    rw [h.isFolder_iff] at hf
    rcases (h.mem_dirEntries hf).1 hx with hx | ⟨-, -, rfl⟩
    · exact hok.names f hf x hx
    · exact hn
  tree := htree
  extents := h.sectors ▸ h.extents

end Appended

/-! ## Where a path leads -/

theorem TreeOk.resolve_walk (h : TreeOk d (diskTable d) r) {path : List UInt8} {junk : Junk}
    (hv : isValidPath path = true) :
    resolve junk d path = (dirTree d (diskTable d) r).walk r (strSplit path slash) :=
  h.resolve_eq _ _ (validPath_head hv) (validPath_components hv).1

/-- **A path resolves to the entry that has its components for a path.** -/
theorem TreeOk.resolve_iff (h : TreeOk d (diskTable d) r) {path : List UInt8} {junk : Junk}
    (hv : isValidPath path = true) : resolve junk d path = some i ↔
      (dirTree d (diskTable d) r).Path (strSplit path slash) i := by
  rw [h.resolve_walk hv]
  exact h.tree.walk_root

theorem TreeOk.path_of_resolve (h : TreeOk d (diskTable d) r) {path : List UInt8} {junk : Junk}
    (hv : isValidPath path = true) (e : resolve junk d path = some i) :
    (dirTree d (diskTable d) r).Path (strSplit path slash) i := (h.resolve_iff hv).1 e

theorem TreeOk.parent_of_resolve (h : TreeOk d (diskTable d) r) {path : List UInt8} {junk : Junk}
    (hv : isValidPath path = true) (hne : path ≠ [slash]) (e : resolve junk d path = some i) :
    ∃ cs q, strSplit path slash = cs ++ [(splitPath path).2] ∧
      strSplit (splitPath path).1 slash = cs ∧ (dirTree d (diskTable d) r).Path cs q ∧
      IsFolder (diskTable d) q ∧ ((splitPath path).2, i) ∈ dirEntries d (diskTable d q) := by
  have hp := h.path_of_resolve hv e
  obtain ⟨cs, name, hsplit, -, hdir, rfl, -⟩ := validPath_split hv hne
  rw [hsplit] at hp
  obtain ⟨q, hq, hf, hm⟩ := hp.last
  rw [h.folder_iff] at hf
  rw [TreeOk.entries_eq hf] at hm
  exact ⟨cs, q, hsplit, hdir, hq, hf, hm⟩

theorem TreeOk.resolve_parent (h : TreeOk d (diskTable d) r) {path : List UInt8}
    (hv : isValidPath path = true) (junk junk' junk₀ : Junk) : resolvePath junk' d (loadFileTable junk d) (splitPath path).1 =
      resolve junk₀ d (splitPath path).1 := by
  obtain ⟨hhead, hcomp⟩ := validPath_parent hv
  unfold resolve
  rw [h.resolve_eq _ _ hhead hcomp, h.resolve_eq _ _ hhead hcomp]

theorem TreeOk.path_of_parent (h : TreeOk d (diskTable d) r) {path : List UInt8} {junk : Junk} {p : ℕ}
    (hv : isValidPath path = true) (hp : resolve junk d (splitPath path).1 = some p) :
    (dirTree d (diskTable d) r).Path (strSplit (splitPath path).1 slash) p := by
  obtain ⟨hhead, hcomp⟩ := validPath_parent hv
  unfold resolve at hp
  rw [h.resolve_eq _ _ hhead hcomp] at hp
  exact h.tree.walk_root.1 hp

theorem TreeOk.resolve_root (h : TreeOk d (diskTable d) r) {path : List UInt8} {junk : Junk}
    (hv : isValidPath path = true) (e : resolve junk d path = some r) : path = [slash] := by
  have hs : isValidPath [slash] = true := by decide
  exact (validPath_ext hv hs ((h.path_of_resolve hv e).unique h.tree .root).symm).symm

end EitanOS
