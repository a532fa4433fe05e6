import EitanOS.Disk.Listing

/-!
# Names that are found again

A new file is found again if its name is stored as a whole, and if `resolve_path` still gets to the folder
that lists it. For a size whose number of sectors wraps around to 0 the data goes to sector 641, over the
folder that is there.

* `FoundAgain`: a path that has been created exists, is listed, and is written over the next time.
* **`Placed.resolvePath_append`**: after a new entry, paths lead to a folder as far as no folder in front of
  it was written over. **`Placed.foundAgain`**: the new entry is found; **`Placed.fileExists_cut`**: not
  under a name of 60 characters.
* **`Placed.not_foundAgain`**: data that is written over a folder on the way can hide the new entry.
* `NameKept`, **`accepted_names_found`**: for which paths, types and sizes a new name is found again.
-/

namespace EitanOS

open Bytes Names

variable {d d' : Drive} {t : FileTable} {r q i j g size : ℕ} {path : List UInt8} {data : Buf}
  {type : FileType} {junk : Junk} {e : FileEntry} {start : UInt32} {name : List UInt8}
  {cs csg : List (List UInt8)}

/-- **A path is found again**: it exists, its folder lists its last component, and writing to it uses no
other entry of the table. -/
def FoundAgain (d : Drive) (path : List UInt8) : Prop :=
  (∀ junk, fileExists junk d path = true) ∧
  (∀ junk, ∃ l, listDir junk d (parentPath path) = some (some l) ∧
    ∃ m ∈ l, cstr m.name 60 = (splitPath path).2) ∧
  ∃ i < 640, (∀ junk, resolve junk d path = some i) ∧ ∀ junk data type size,
    (diskTable (writeFile junk d path data type size).2 i).Live ∧
      ∀ j < 640, j ≠ i → diskTable (writeFile junk d path data type size).2 j = diskTable d j

theorem listings_of_listDir {l : List FileMetadata} (h : listDir junk d path = some (some l)) :
    ∃ t entries count, l = listings t entries count := by
  unfold listDir at h
  split_ifs at h
  · split at h
    · cases h
    · split_ifs at h
      · cases h
      · split at h
        · cases h
        · split_ifs at h
          cases h
          exact ⟨_, _, _, rfl⟩
  · cases h

theorem length_of_listed {l : List FileMetadata} (h : listDir junk d path = some (some l))
    {m : FileMetadata} (hm : m ∈ l) : (cstr m.name 60).length < 60 := by
  obtain ⟨t, entries, count, rfl⟩ := listings_of_listDir h
  obtain ⟨j, -, rfl⟩ := List.mem_map.1 hm
  exact length_cstr_record _

theorem lookup_of_resolve (hv : isValidPath path = true) (hi : resolve junk d path = some i)
    (hload : loadFileTable (junk.sub 0) d i = diskTable d i) (hl : (diskTable d i).Live) :
    lookup junk d path = some (diskTable d i) := by
  unfold resolve at hi
  unfold lookup
  rw [if_pos hv]
  dsimp only
  rw [hi]
  dsimp only
  rw [hload, if_pos hl]

/-! ## Paths after a new entry -/

/-- A write of this size leaves the folder alone: its data is not written over sector 641, or the folder
is not there. -/
def Spared (d : Drive) (size p : ℕ) : Prop :=
  SeeksSpace size ∨ ((diskTable d p).size ≠ 0 → (diskTable d p).startSector ≠ 641)

section Way

variable (h : Placed d d' q i e start name data size) (hok : TreeOk d (diskTable d) r)
  (hf : IsFolder (diskTable d) q) (hp : (dirTree d (diskTable d) r).Path cs q)
  (ht : ∀ j < 640, t j = diskTable d' j)

include h hf in
theorem Placed.entry_eq : q ≠ i ∧ i ≠ q ∧ diskTable d' i = e ∧ i < 640 := by
  have hqi := h.ne_of_live hf.2.1
  exact ⟨hqi, hqi.symm, h.entry hqi.symm, (findFileEntrySlot_spec h.slot).1⟩

include h hf in
theorem Placed.entry_iff (hj : j < 640) (hji : j ≠ i) :
    ((diskTable d' j).Live ↔ (diskTable d j).Live) ∧ (diskTable d' j).type = (diskTable d j).type := by
  by_cases hjq : j = q
  · subst hjq
    rw [(h.parent hji hj).2]
    exact ⟨iff_of_true rfl hf.2.1, rfl⟩
  · rw [h.rest j hj hji hjq]
    exact ⟨Iff.rfl, rfl⟩

include h hok hf ht in
theorem Placed.findRoot_eq (he : e.IsRoot → ∃ j < i, (diskTable d j).Live ∧ (diskTable d j).IsRoot) :
    findRoot t = some r := by
  obtain ⟨-, -, hentry, -⟩ := h.entry_eq hf
  refine hok.findRoot_of_roots (h.ne_of_live hok.root.2.1) (fun j hj hji => ?_) fun hi _ hroot => ?_
  · obtain ⟨h₁, h₂⟩ := h.entry_iff hf hj hji
    rw [ht j hj, h₁, FileEntry.IsRoot, h₂]
  · rw [ht i hi, hentry] at hroot
    exact he hroot

include h hok ht in
theorem Placed.readsAs_of_ne {p : ℕ} (hpf : IsFolder (diskTable d) p) (hpq : p ≠ q)
    (hs : Spared d size p) : ReadsAs d' (t p) (dirEntries d (diskTable d p)) := by
  rw [ht p hpf.1, h.rest p hpf.1 (h.ne_of_live hpf.2.1) hpq]
  refine hok.readsAs_kept hpf h.sectors fun k hk => ?_
  have ho := (hok.extents.bounds hpf.1 hpf.2.1 hk).1
  exact h.contents p ho hpq (hs.imp_right fun hst => hst ho.2.2) k hk

include h hok hf hp ht in
/-- **Paths lead to a folder** on the way to the new entry, if the folders in front of it are spared. -/
theorem Placed.resolvePath_append
    (he : e.IsRoot → ∃ j < i, (diskTable d j).Live ∧ (diskTable d j).IsRoot)
    (hg : (dirTree d (diskTable d) r).Path csg g) (hgf : IsFolder (diskTable d) g) (hcs : csg <+: cs)
    (hc : ∀ c ∈ cs, Component c)
    (hway : ∀ csp p, (dirTree d (diskTable d) r).Path csp p → csp <+: csg → csp ≠ csg → Spared d size p)
    (hhead : path.head? = some slash) {rest : List (List UInt8)}
    (hpath : strSplit path slash = csg ++ rest) (junk : Junk) :
    ∃ junk', resolvePath junk d' t path = resolveLoop d' t junk' g rest := by
  have hroot := h.findRoot_eq hok hf ht he
  rw [resolvePath, if_pos hhead, hroot, hpath]
  refine hok.resolveLoop_append hg hgf (fun c hm => hc c (hcs.subset hm)) (fun csp p hpp hpf hpre hne => ?_)
    (fun p hlt hl => ?_) junk rest
  · refine h.readsAs_of_ne hok ht hpf ?_ (hway csp p hpp hpre hne)
    rintro rfl
    -- the folder of the new entry is behind all of these
    have hle := hcs.length_le
    rw [← hpp.unique hok.tree hp] at hle
    exact hne (hpre.eq_of_length_le hle)
  · obtain ⟨h₁, h₂⟩ := h.entry_iff hf hlt (h.ne_of_live hl)
    rw [ht p hlt]
    exact ⟨h₁.2 hl, h₂⟩

include h hok hf in
theorem Placed.folder_eq : diskTable d' q = ⟨magic, (diskTable d q).type, start,
      UInt32.ofNat (((diskTable d q).size.toNat / 64 + 1) * 64)⟩ ∧
    (diskTable d' q).size.toNat = ((diskTable d q).size.toNat / 64 + 1) * 64 ∧
    (diskTable d' q).size.toNat ≤ 255 * 512 ∧ 641 ≤ start.toNat ∧
    start.toNat + ((diskTable d' q).size.toNat + 511) / 512 < d'.sectorCount ∧ d'.sectorCount ≤ 65535 := by
  obtain ⟨hqi, -⟩ := h.entry_eq hf
  obtain ⟨hst, hfit⟩ := h.fits hqi hf.1
  have hcount := hok.count_le hf
  have h₁ := hok.le_sectors
  have h₂ := hok.sectors_le
  have hq := (h.parent hqi hf.1).2
  have hsize : (diskTable d' q).size.toNat = ((diskTable d q).size.toNat / 64 + 1) * 64 := by
    rw [hq]
    exact UInt32.toNat_ofNat_of_lt' (by simp [UInt32.size]; omega)
  rw [h.sectors, hsize]
  exact ⟨hq, rfl, by omega, hst, by omega, h₂⟩

include h hok hf in
theorem Placed.readSectors_eq (target : Buf) {k : ℕ} (hk : k < (diskTable d' q).size.toNat) :
    readSectors d' (diskTable d' q).startSector.toNat target (diskTable d' q).size.toNat k =
      content d' (diskTable d' q) k := by
  obtain ⟨hq, -, hle, -, hfit, h₂⟩ := h.folder_eq hok hf
  have hst : (diskTable d' q).startSector = start := by rw [hq]
  rw [← hst] at hfit
  exact readSectors_apply hle h₂ hfit hk

end Way

/-! ## The new entry -/

section Found

variable (h : Placed d d' q i e start (splitPath path).2 data size) (hok : TreeOk d (diskTable d) r)
  (hf : IsFolder (diskTable d) q) (hl : e.Live)
  (he : e.IsRoot → ∃ j < i, (diskTable d j).Live ∧ (diskTable d j).IsRoot) (hv : isValidPath path = true)
  (hsplit : strSplit path slash = strSplit (splitPath path).1 slash ++ [(splitPath path).2])
  (hname : Component (splitPath path).2) (hnone : resolve junk d path = none)
  (hp : (dirTree d (diskTable d) r).Path (strSplit (splitPath path).1 slash) q)
  (hs : SeeksSpace size ∨ start ≠ 641)
  (hway : ∀ csp p, (dirTree d (diskTable d) r).Path csp p → csp <+: strSplit (splitPath path).1 slash →
    csp ≠ strSplit (splitPath path).1 slash → Spared d size p)
  (ht : ∀ j < 640, t j = diskTable d' j)

include h hok hf hs ht in
theorem Placed.readsAs_folder : ReadsAs d' (t q)
    (dirEntries d (diskTable d q) ++ [((splitPath path).2.take 59, i)]) := by
  rw [ht q hf.1, ← h.entries hf hs]
  exact readsAs_dirEntries fun target _ hk => h.readSectors_eq hok hf target hk

include hok hf in
theorem Placed.length_lt : ∀ x ∈ dirEntries d (diskTable d q) ++ [((splitPath path).2.take 59, i)],
    x.1.length < 60 := by
  intro x hx
  rcases List.mem_append.1 hx with hx | hx
  · exact (hok.names q hf x hx).2
  · rw [List.mem_singleton.1 hx]
    have := List.length_take_le 59 (splitPath path).2
    dsimp only
    omega

include h hok hf hl he hv hsplit hname hnone hp hs hway ht in
/-- **Where the path leads**: to the new entry, if its name was not cut. -/
theorem Placed.resolvePath_eq (junk' : Junk) : resolvePath junk' d' t path =
    if (splitPath path).2.length < 60 then some i else none := by
  obtain ⟨-, -, hentry, hi⟩ := h.entry_eq hf
  obtain ⟨junk'', e'⟩ := h.resolvePath_append hok hf hp ht he hp hf List.prefix_rfl
    (validPath_parent hv).2 hway (validPath_head hv) hsplit junk'
  rw [e', resolveLoop_cons (h.readsAs_folder hok hf hs ht) (Placed.length_lt hok hf) hname]
  rw [hok.resolve_walk hv, hsplit] at hnone
  have hfresh := hok.fresh_name hp hf hnone
  have hold : (dirEntries d (diskTable d q)).find? (fun x => decide (x.1 = (splitPath path).2 ∧
      (t x.2).Live ∧ ((t x.2).IsDir ∨ ([] : List (List UInt8)) = []))) = none :=
    List.find?_eq_none.2 fun x hx => by simp [hfresh x hx]
  rw [List.find?_append, hold, Option.none_or, List.find?_singleton]
  have hlive : (t i).Live := by
    rw [ht i hi, hentry]
    exact hl
  split_ifs with htest hlen hlen
  · rfl
  · -- a name of 60 characters is not what is left of it
    rw [decide_eq_true_eq] at htest
    have htake := congrArg List.length htest.1
    rw [List.length_take] at htake
    omega
  · exact absurd (decide_eq_true ⟨List.take_of_length_le (by omega), hlive, .inr rfl⟩) htest
  · rfl

include h hok hf he hv hp hway ht in
theorem Placed.resolvePath_parent (hne : path ≠ [slash]) (junk' : Junk) :
    resolvePath junk' d' t (parentPath path) = some q := by
  obtain ⟨hv', hparent⟩ := validPath_parentPath hv hne
  obtain ⟨junk'', e'⟩ := h.resolvePath_append hok hf hp ht he hp hf List.prefix_rfl
    (validPath_parent hv).2 hway (validPath_head hv') (hparent.trans (List.append_nil _).symm) junk'
  exact e'

include h hok hf hs in
/-- **Its folder lists it.** -/
theorem Placed.listed {p : List UInt8} (hpv : isValidPath p = true)
    (hlook : ∀ junk, lookup junk d' p = some (diskTable d' q)) (junk' : Junk) :
    ∃ l, listDir junk' d' p = some (some l) ∧ ∃ m ∈ l, cstr m.name 60 = (splitPath path).2.take 59 := by
  obtain ⟨-, -, -, hi⟩ := h.entry_eq hf
  obtain ⟨-, hsize, -⟩ := h.folder_eq hok hf
  have hentries := h.entries hf hs
  obtain ⟨l, hlist, hmap⟩ := listDir_records junk' hpv hlook (by omega)
    (fun target _ hk => h.readSectors_eq hok hf target hk) fun x hx => by
      rw [hentries] at hx
      refine ⟨Placed.length_lt hok hf x hx, ?_⟩
      rcases List.mem_append.1 hx with hx | hx
      · exact (hok.live q hf x hx).1
      · rw [List.mem_singleton.1 hx]
        exact hi
  have hm : ((splitPath path).2.take 59, i) ∈ dirEntries d' (diskTable d' q) := by
    rw [hentries]
    simp
  have hrecord := List.mem_map_of_mem (f := fun x => (x.1, (loadFileTable (junk'.sub 4) d' x.2).type,
    (loadFileTable (junk'.sub 4) d' x.2).size.toNat)) hm
  rw [← hmap] at hrecord
  obtain ⟨m, hml, e⟩ := List.mem_map.1 hrecord
  exact ⟨l, hlist, m, hml, congrArg Prod.fst e⟩

include h hok hf hl he hv hsplit hname hnone hp hs hway in
/-- **A name that is not cut is found again.** -/
theorem Placed.foundAgain (hlen : (splitPath path).2.length < 60) : FoundAgain d' path := by
  obtain ⟨hqi, -, hentry, hi⟩ := h.entry_eq hf
  have hne : path ≠ [slash] := by
    rintro rfl
    simp [strSplit_slash] at hsplit
  have h₁ := h.sectors ▸ hok.le_sectors
  have h₂ := h.sectors ▸ hok.sectors_le
  have hload : ∀ junk, ∀ j < 640, loadFileTable junk d' j = diskTable d' j := fun junk j hj =>
    loadFileTable_apply junk (by omega) h₂ hj
  have hself : ∀ junk t, (∀ j < 640, t j = diskTable d' j) → resolvePath junk d' t path = some i :=
    fun junk t ht => (h.resolvePath_eq hok hf hl he hv hsplit hname hnone hp hs hway ht junk).trans
      (if_pos hlen)
  have hlive : (diskTable d' i).Live := by rwa [hentry]
  have hex : ∀ junk, fileExists junk d' path = true := fun junk => by
    rw [fileExists, lookup_of_resolve hv (hself _ _ (hload _)) (hload _ i hi) hlive]
    rfl
  refine ⟨hex, fun junk => ?_, i, hi, fun junk => hself _ _ (hload _), fun junk data type size => ?_⟩
  · have hlq : (diskTable d' q).Live := (h.entry_iff hf hf.1 hqi).1.2 hf.2.1
    obtain ⟨l, hlist, m, hm, hname⟩ := h.listed hok hf hs (validPath_parentPath hv hne).1 (fun junk =>
      lookup_of_resolve (validPath_parentPath hv hne).1
        (h.resolvePath_parent hok hf he hv hp hway (hload _) hne _) (hload _ q hf.1) hlq) junk
    exact ⟨l, hlist, m, hm, hname.trans (List.take_of_length_le (by omega))⟩
  · rw [writeFile_found hv (hex _) (hself _ _ (hload _))]
    split_ifs
    · exact editFile_entries (by omega) h₂ (hload _) hi hlive data size
    · exact ⟨hlive, fun j _ _ => rfl⟩

include h hok hf hl he hv hsplit hname hnone hp hs hway in
/-- **A name that is cut is not found.** -/
theorem Placed.fileExists_cut (hlen : 60 ≤ (splitPath path).2.length) (junk' : Junk) :
    fileExists junk' d' path = false := by
  have h₁ := h.sectors ▸ hok.le_sectors
  have h₂ := h.sectors ▸ hok.sectors_le
  rw [fileExists, lookup, if_pos hv]
  dsimp only
  rw [h.resolvePath_eq hok hf hl he hv hsplit hname hnone hp hs hway
    (fun j hj => loadFileTable_apply _ (by omega) h₂ hj), if_neg (by omega)]
  rfl

end Found

/-! ## Data that hides the new entry -/

/-- Memory in which what is behind the table looks like empty directories. -/
def hidingJunk : Junk := fun _ => encodeTable fun _ => ⟨magic, FileType.directory.code, 0, 0⟩

theorem loadFileTable_hidingJunk (d : Drive) :
    loadFileTable (hidingJunk.sub 0) d 640 = ⟨magic, FileType.directory.code, 0, 0⟩ := by
  rw [← decodeTable_encodeTable (fun _ => ⟨magic, FileType.directory.code, 0, 0⟩) 640]
  refine decodeTable_congr fun k hk => ?_
  simp only [readSectors]
  split_ifs
  · rfl
  · dsimp only
    rw [if_neg (by omega), if_neg fun h => h.2.1]
    rfl

/-- A record for the name `c` that points behind the table. -/
def hidingData (c : List UInt8) : Buf := putDirEntry (fun _ => 0) 0 640 c

section Hidden

variable (h : Placed d d' q i e start name data size) (hok : TreeOk d (diskTable d) r)
  (hf : IsFolder (diskTable d) q) (hgf : IsFolder (diskTable d) g)

include h hok hf hgf in
theorem Placed.readSectors_folder (target : Buf) {k : ℕ} (hk : k < (diskTable d' g).size.toNat) :
    readSectors d' (diskTable d' g).startSector.toNat target (diskTable d' g).size.toNat k =
      content d' (diskTable d' g) k := by
  by_cases hgq : g = q
  · subst hgq
    exact h.readSectors_eq hok hf target hk
  · rw [h.rest g hgf.1 (h.ne_of_live hgf.2.1) hgq] at hk ⊢
    exact hok.readSectors_kept hgf h.sectors hk

include h hok hf hgf in
/-- A folder that is not empty leaves room for a sector. -/
theorem Placed.lt_sectors (hsize : (diskTable d' g).size ≠ 0) : 642 < d.sectorCount := by
  by_cases hgq : g = q
  · subst hgq
    obtain ⟨hst, hfit⟩ := h.fits (h.entry_eq hf).1 hf.1
    omega
  · rw [h.rest g hgf.1 (h.ne_of_live hgf.2.1) hgq] at hsize
    have hg : Occupied (diskTable d) g := ⟨hgf.1, hgf.2.1, hsize⟩
    have hst := hok.extents.start g hg
    have hstop := hok.extents.stop g hg
    have hpos : 0 < (diskTable d g).size.toNat := Nat.pos_of_ne_zero fun e => hsize (UInt32.toNat_inj.1 e)
    unfold FileEntry.stop FileEntry.sectors at hstop
    omega

end Hidden

/-- **Data that is written over a folder on the way** can hide what is behind it. -/
theorem Placed.not_foundAgain {c : List UInt8} {rest : List (List UInt8)}
    (h : Placed d d' q i e start name (hidingData c) size) (hok : TreeOk d (diskTable d) r)
    (hf : IsFolder (diskTable d) q) (hp : (dirTree d (diskTable d) r).Path cs q)
    (he : e.IsRoot → ∃ j < i, (diskTable d j).Live ∧ (diskTable d j).IsRoot)
    (hcomp : ∀ c ∈ cs, Component c) (hhead : path.head? = some slash) (hs : ¬ SeeksSpace size)
    (hg : (dirTree d (diskTable d) r).Path csg g) (hgf : IsFolder (diskTable d) g) (hcs : csg <+: cs)
    (hway : ∀ csp p, (dirTree d (diskTable d) r).Path csp p → csp <+: csg → csp ≠ csg → Spared d size p)
    (hpath : strSplit path slash = csg ++ c :: rest) (hc : Component c) (hlen : c.length < 60)
    (hst : (diskTable d' g).startSector = 641) (hsize : 64 ≤ (diskTable d' g).size.toNat) :
    ¬ FoundAgain d' path := by
  rintro ⟨-, -, x, hx, hres, -⟩
  have h₁ := h.sectors ▸ hok.le_sectors
  have h₂ := h.sectors ▸ hok.sectors_le
  have hload : ∀ j < 640, loadFileTable (hidingJunk.sub 0) d' j = diskTable d' j := fun j hj =>
    loadFileTable_apply _ (by omega) h₂ hj
  have hbehind := loadFileTable_hidingJunk d'
  have e' := hres hidingJunk
  unfold resolve at e'
  obtain ⟨junk', hto⟩ := h.resolvePath_append hok hf hp hload he hg hgf hcs hcomp hway hhead hpath
    (hidingJunk.sub 1)
  rw [hto] at e'
  have hsc : 642 < d.sectorCount := h.lt_sectors hok hf hgf fun e => by
    rw [e] at hsize
    exact absurd hsize (by decide)
  -- the first record of the folder is the one in the data
  have hread : ∀ target, ∀ k < 64, readSectors d' (diskTable d' g).startSector.toNat target
      (diskTable d' g).size.toNat k = hidingData c k := by
    intro target k hk
    rw [h.readSectors_folder hok hf hgf target (by omega), ← h.bytes hs hsc k (by omega), content, hst]
    rfl
  have hrecord : ∀ target, nameAt (readSectors d' (diskTable d' g).startSector.toNat target
      (diskTable d' g).size.toNat) 0 = c ∧ dirIndex (readSectors d' (diskTable d' g).startSector.toNat target
      (diskTable d' g).size.toNat) 0 = 640 := by
    intro target
    obtain ⟨hn, hidx⟩ := entry_congr (hread target) (by decide : 0 < 64 / 64)
    rw [hn, hidx, hidingData, nameAt_putDirEntry hc.zero_notMem, dirIndex_putDirEntry (by decide)]
    exact ⟨List.take_of_length_le (by omega), rfl⟩
  rw [resolveLoop_head hc hlen (by rw [hload g hgf.1]; exact hsize) (by rw [hload g hgf.1]; exact hrecord)
    (by rw [hbehind]) (by rw [hbehind])] at e'
  cases rest with
  | nil =>
    rw [resolveLoop, Option.some.injEq] at e'
    omega
  | cons c' rest =>
    rw [resolveLoop] at e'
    dsimp only at e'
    rw [if_pos (by rw [hbehind])] at e'
    cases e'

/-! ## Which names are found again -/

/-- **When a new name is found again**: it has less than 60 characters, and for a size whose number of
sectors wraps around to 0 no folder on its way is at sector 641 once its own folder has been moved. A new
root may not come before the root. -/
def NameKept (junk : Junk) (d : Drive) (path : List UInt8) (q : ℕ) (type : FileType) (size : ℕ) : Prop :=
  RootFirst d type ∧ ∀ T, createdTable d (diskTable d) q type size = some T →
    (splitPath path).2.length < 60 ∧ (SeeksSpace size ∨ ∀ p g, isValidPath p = true →
      strSplit p slash <+: strSplit (splitPath path).1 slash → resolve junk d p = some g →
        (T g).size ≠ 0 → (T g).startSector ≠ 641)

/-- A folder on the way that data in sector 641 is written over. -/
def Hit (d : Drive) (T : FileTable) (r : ℕ) (cs csg : List (List UInt8)) (g : ℕ) : Prop :=
  (dirTree d (diskTable d) r).Path csg g ∧ csg <+: cs ∧ (T g).size ≠ 0 ∧ (T g).startSector = 641

theorem RootFirst.entry_root (h : RootFirst d type) (hslot : findFileEntrySlot (diskTable d) = some i)
    {e : FileEntry} (ht : e.type = type.code) :
    e.IsRoot → ∃ j < i, (diskTable d j).Live ∧ (diskTable d j).IsRoot := fun he =>
  h (FileType.code_inj.1 (ht.symm.trans he)) i hslot

section Kept

variable (hok : TreeOk d (diskTable d) r) (hv : isValidPath path = true)

include hok hv in
theorem TreeOk.resolve_parent_eq (junk' : Junk) :
    resolve junk' d (splitPath path).1 = resolve junk d (splitPath path).1 := by
  obtain ⟨hhead, hcomp⟩ := validPath_parent hv
  exact (hok.resolve_eq _ _ hhead hcomp).trans (hok.resolve_eq _ _ hhead hcomp).symm

variable (hty : RootFirst d type) (hnone : resolve junk d path = none)
  (hq : resolve junk d (splitPath path).1 = some q)

include hok hv hty hnone hq in
/-- **What a write of a new path leaves behind**, in the table and on the drive. -/
theorem TreeOk.placed_created {junk' : Junk} (e : writeFile junk' d path data type size = (true, d')) :
    ∃ T i start start', createdTable d (diskTable d) q type size = some T ∧
      (∀ j < 640, diskTable d' j = T j) ∧ Placed d d' q i ⟨magic, type.code, start, UInt32.ofNat size⟩
        start' (splitPath path).2 data size := by
  have hnone' : resolve junk' d path = none := by rw [hok.resolve_walk hv, ← hok.resolve_walk hv, hnone]
  have hq' : resolve junk' d (splitPath path).1 = some q := (hok.resolve_parent_eq hv junk').trans hq
  have hnew : fileExists (junk'.sub 0) d path = false := by
    rw [hok.fileExists_eq junk _ hv, hnone]
    rfl
  obtain ⟨p, i, start, start', hp, hplaced⟩ := hok.placed hnew e
  obtain rfl : q = p := Option.some.inj (hq'.symm.trans (hok.createsIn_parent hty hv hp))
  cases hT : createdTable d (diskTable d) q type size with
  | none =>
    have hfst := (hok.writeFile_created hty hv hnone' hq' data fun _ _ => rfl).1 hT
    cases (congrArg Prod.fst e).symm.trans hfst
  | some T =>
    obtain ⟨d'', e', -, htab⟩ := (hok.writeFile_created hty hv hnone' hq' data fun _ _ => rfl).2 T hT
    obtain rfl : d' = d'' := congrArg Prod.snd (e.symm.trans e')
    exact ⟨T, i, start, start', rfl, htab, hplaced⟩

include hok hv in
theorem TreeOk.hit_iff {T : FileTable}
    (hsplit : strSplit path slash = strSplit (splitPath path).1 slash ++ [(splitPath path).2]) :
    (∀ p g, isValidPath p = true → strSplit p slash <+: strSplit (splitPath path).1 slash →
      resolve junk d p = some g → (T g).size ≠ 0 → (T g).startSector ≠ 641) ↔
    ∀ csg g, ¬ Hit d T r (strSplit (splitPath path).1 slash) csg g := by
  constructor
  · rintro h csg g ⟨hg, hcs, hsize, hst⟩
    obtain ⟨p, hpv, rfl⟩ := validPath_prefix hv (hcs.trans ⟨_, hsplit.symm⟩)
    exact h p g hpv hcs ((hok.resolve_iff hpv).2 hg) hsize hst
  · intro h p g hpv hcs hg hsize hst
    exact h _ g ⟨(hok.resolve_iff hpv).1 hg, hcs, hsize, hst⟩

include hok in
theorem Placed.spared {T : FileTable} (h : Placed d d' q i e start name data size)
    (htab : ∀ j < 640, diskTable d' j = T j) (hq : (dirTree d (diskTable d) r).Path cs q) {p : ℕ}
    (hp : (dirTree d (diskTable d) r).Path csg p) (hpre : csg <+: cs) (hne : csg ≠ cs)
    (hno : ¬ Hit d T r cs csg p) : Spared d size p := by
  refine .inr fun hsize hst => hno ?_
  obtain ⟨hlt, hl⟩ := hok.live_of_path hp
  have hpq : p ≠ q := by
    rintro rfl
    exact hne (hp.unique hok.tree hq)
  have hT : T p = diskTable d p := by rw [← htab p hlt, h.rest p hlt (h.ne_of_live hl) hpq]
  rw [← hT] at hsize hst
  exact ⟨hp, hpre, hsize, hst⟩

include hok hv hnone in
theorem TreeOk.split_of_new :
    strSplit path slash = strSplit (splitPath path).1 slash ++ [(splitPath path).2] ∧
      Component (splitPath path).2 := by
  have hne : path ≠ [slash] := by
    rintro rfl
    cases hnone.symm.trans ((hok.resolve_iff (by decide)).2 .root)
  obtain ⟨cs, name, hsplit, -, rfl, rfl, hname⟩ := validPath_split hv hne
  exact ⟨hsplit, hname⟩

include hok hv hty hnone hq in
/-- **The condition is enough**, whatever the data. -/
theorem TreeOk.foundAgain_of_nameKept (hf : IsFolder (diskTable d) q)
    (hk : NameKept junk d path q type size) {junk' : Junk}
    (e : writeFile junk' d path data type size = (true, d')) : FoundAgain d' path := by
  obtain ⟨T, i, start, start', hT, htab, h⟩ := hok.placed_created hv hty hnone hq e
  obtain ⟨hlen, hway⟩ := hk.2 T hT
  obtain ⟨hsplit, hname⟩ := hok.split_of_new hv hnone
  rw [hok.hit_iff hv hsplit] at hway
  have hp := hok.path_of_parent hv hq
  obtain ⟨hq', hsize, -⟩ := h.folder_eq hok hf
  refine h.foundAgain hok hf rfl (hty.entry_root h.slot rfl) hv hsplit hname hnone hp (hway.imp_right fun hno e => ?_)
    (fun csp p hpp hpre hne => ?_) hlen
  · refine hno _ q ⟨hp, List.prefix_rfl, ?_, ?_⟩
    · rw [← htab q hf.1]
      intro e
      rw [e] at hsize
      exact absurd hsize (by simp)
    · rw [← htab q hf.1, hq', e]
  · rcases hway with hs | hno
    · exact .inl hs
    · exact h.spared hok htab hp hpp hpre hne (hno csp p)

include hok in
/-- The name that is looked up in a folder on the way. -/
theorem TreeOk.next_name (hf : IsFolder (diskTable d) q) (hq : (dirTree d (diskTable d) r).Path cs q)
    (hg : (dirTree d (diskTable d) r).Path csg g) (hcs : csg <+: cs) (hcomp : ∀ c ∈ cs, Component c)
    (hname : Component name) (hlen : name.length < 60) :
    ∃ c rest, cs ++ [name] = csg ++ c :: rest ∧ Component c ∧ c.length < 60 ∧ IsFolder (diskTable d) g ∧
      (g = q ∨ 64 ≤ (diskTable d g).size.toNat) := by
  obtain ⟨m, rfl⟩ := hcs
  cases m with
  | nil =>
    rw [List.append_nil] at hq ⊢
    obtain rfl := hq.node_unique hok.tree hg
    exact ⟨name, [], rfl, hname, hlen, hf, .inl rfl⟩
  | cons c m =>
    rw [List.append_cons] at hq
    obtain ⟨x, hx, -⟩ := hq.split
    obtain ⟨g', hg', hfolder, hm⟩ := hx.last
    obtain rfl := hg'.node_unique hok.tree hg
    have hgf : IsFolder (diskTable d) g := hok.folder_iff.1 hfolder
    rw [entries_eq hgf] at hm
    refine ⟨c, m ++ [name], by simp, hcomp c (by simp), (hok.names g hgf _ hm).2, hgf, .inr ?_⟩
    have hpos := List.length_pos_of_mem hm
    rw [length_dirEntries] at hpos
    omega

include hok hv hty hnone hq in
/-- **A folder that is hit loses the new entry**, for some data. -/
theorem TreeOk.exists_not_foundAgain (hf : IsFolder (diskTable d) q) (hs : ¬ SeeksSpace size) {T : FileTable}
    (hT : createdTable d (diskTable d) q type size = some T) (hlen : (splitPath path).2.length < 60)
    (hhit : ∃ csg g, Hit d T r (strSplit (splitPath path).1 slash) csg g) :
    ∃ data d', writeFile junk d path data type size = (true, d') ∧ ¬ FoundAgain d' path := by
  obtain ⟨hsplit, hname⟩ := hok.split_of_new hv hnone
  have hp := hok.path_of_parent hv hq
  obtain ⟨-, hcomp⟩ := validPath_parent hv
  -- the first folder that is hit: the way to it is as it was
  obtain ⟨csg, ⟨g, hg, hcs, hsize, hst⟩, hmin⟩ := (measure List.length).wf.has_min
    {csg | ∃ g, Hit d T r (strSplit (splitPath path).1 slash) csg g} hhit
  obtain ⟨c, rest, hnext, hc, hclen, hgf, hbig⟩ := hok.next_name hf hp hg hcs hcomp hname hlen
  obtain ⟨d', e, -⟩ := (hok.writeFile_created hty hv hnone hq (hidingData c) fun _ _ => rfl).2 T hT
  obtain ⟨T', i, start, start', hT', htab, h⟩ := hok.placed_created hv hty hnone hq e
  obtain rfl : T = T' := Option.some.inj (hT.symm.trans hT')
  obtain ⟨-, hqsize, -⟩ := h.folder_eq hok hf
  refine ⟨_, d', e, h.not_foundAgain hok hf hp (hty.entry_root h.slot rfl) hcomp (validPath_head hv) hs hg
    hgf hcs (fun csp p hpp hpre hne => ?_) (hsplit.trans hnext) hc hclen (by rw [htab g hgf.1, hst]) ?_⟩
  · have hlt : csp.length < csg.length := lt_of_le_of_ne hpre.length_le fun e => hne (hpre.eq_of_length e)
    refine h.spared hok htab hp hpp (hpre.trans hcs) (fun e => ?_) fun hno => hmin csp ⟨p, hno⟩ hlt
    subst e
    exact absurd hcs.length_le (by omega)
  · by_cases hgq : g = q
    · rw [hgq]
      omega
    · rw [h.rest g hgf.1 (h.ne_of_live hgf.2.1) hgq]
      exact hbig.resolve_left hgq

include hok hv hty hnone hq in
/-- **The condition is needed**, unless the new entry is a root in front of the root. -/
theorem TreeOk.nameKept_of_foundAgain (hf : IsFolder (diskTable d) q)
    (hall : ∀ data d', writeFile junk d path data type size = (true, d') → FoundAgain d' path) :
    NameKept junk d path q type size := by
  refine ⟨hty, fun T hT => ?_⟩
  obtain ⟨hsplit, -⟩ := hok.split_of_new hv hnone
  have hlen : (splitPath path).2.length < 60 := by
    obtain ⟨d', e, -⟩ := (hok.writeFile_created hty hv hnone hq (fun _ => 0) fun _ _ => rfl).2 T hT
    obtain ⟨-, hlist, -⟩ := hall _ d' e
    obtain ⟨l, hl, m, hm, hname⟩ := hlist junk
    rw [← hname]
    exact length_of_listed hl hm
  refine ⟨hlen, or_iff_not_imp_left.2 fun hs => (hok.hit_iff hv hsplit).2 fun csg g hhit => ?_⟩
  obtain ⟨data, d', e, hlost⟩ := hok.exists_not_foundAgain hv hty hnone hq hf hs hT hlen ⟨csg, g, hhit⟩
  exact hlost (hall data d' e)

end Kept

/-- **An accepted name is found again** for every data exactly if it has less than 60 characters and, for a
size that wraps around, nothing on its way is written over. -/
theorem accepted_names_found (h : WellFormed d) (hu : RootUnlisted d) (h₁ : 642 ≤ d.sectorCount)
    (h₂ : d.sectorCount ≤ 65535) (hv : isValidPath path = true) (hnone : resolve junk d path = none)
    (hq : resolve junk d (splitPath path).1 = some q) (hf : IsFolder (diskTable d) q) (type : FileType)
    (size : ℕ) :
    (NameKept junk d path q type size → ∀ junk' data d',
      writeFile junk' d path data type size = (true, d') → FoundAgain d' path) ∧
    (RootFirst d type → (∀ data d', writeFile junk d path data type size = (true, d') → FoundAgain d' path) →
      NameKept junk d path q type size) := by
  obtain ⟨r, hd⟩ := h.sound hu h₁ h₂
  exact ⟨fun hk _ _ _ e => hd.treeOk.foundAgain_of_nameKept hv hk.1 hnone hq hf hk e,
    fun hty hall => hd.treeOk.nameKept_of_foundAgain hv hty hnone hq hf hall⟩

theorem accepted_names_found_fresh_drive :
    ∃ d', writeFile zeroJunk freshDrive [47, 97] (fun _ => 7) .file 3 = (true, d') ∧
      FoundAgain d' [47, 97] := by
  have hv : isValidPath [47, 97] = true := by decide
  have hok := freshDrive_sound.treeOk
  have hnone : resolve zeroJunk freshDrive [47, 97] = none :=
    (hok.resolve_walk hv).trans (walk_freshDrive _ _)
  have hroot : resolve zeroJunk freshDrive [47] = some 0 := (hok.resolve_iff (by decide)).2 .root
  have hty : RootFirst freshDrive .file := .of_ne (by decide)
  have hs : SeeksSpace 3 := .of_le (by decide)
  obtain ⟨d', e, -⟩ := writeFile_freshDrive hv (by decide) rfl hty createdTable_freshDrive fun _ => 7
  exact ⟨d', e, (accepted_names_found wellFormed_freshDrive rootUnlisted_freshDrive hok.le_sectors
    hok.sectors_le hv hnone hroot freshDrive_root .file 3).1 ⟨hty, fun _ _ => ⟨by decide, .inl hs⟩⟩ _ _ _ e⟩

/-- **A name of 60 characters** is accepted, but its last one is not stored, and it is not found. -/
theorem long_name_lost : ∃ path d', isValidPath path = true ∧ (splitPath path).2.length = 60 ∧
    WellFormed freshDrive ∧ RootUnlisted freshDrive ∧ resolve zeroJunk freshDrive path = none ∧
    resolve zeroJunk freshDrive (splitPath path).1 = some 0 ∧ IsFolder (diskTable freshDrive) 0 ∧
    writeFile zeroJunk freshDrive path (fun _ => 7) .file 3 = (true, d') ∧
    ∀ junk, fileExists junk d' path = false := by
  have hv : isValidPath (47 :: List.replicate 60 97) = true := by decide
  have hty : RootFirst freshDrive .file := .of_ne (by decide)
  have hs : SeeksSpace 3 := .of_le (by decide)
  obtain ⟨d', e, -⟩ := writeFile_freshDrive hv (by decide) rfl hty createdTable_freshDrive fun _ => 7
  have hok := freshDrive_sound.treeOk
  have hroot : resolve zeroJunk freshDrive [47] = some 0 := (hok.resolve_iff (by decide)).2 .root
  have hnone : resolve zeroJunk freshDrive (47 :: List.replicate 60 97) = none :=
    (hok.resolve_walk hv).trans (walk_freshDrive _ _)
  refine ⟨47 :: List.replicate 60 97, d', hv, by decide, wellFormed_freshDrive, rootUnlisted_freshDrive,
    hnone, hroot, freshDrive_root, e, ?_⟩
  obtain ⟨T, i, start, start', -, -, hplaced⟩ := hok.placed_created hv hty hnone hroot e
  obtain ⟨hsplit, hname⟩ := hok.split_of_new hv hnone
  exact hplaced.fileExists_cut hok freshDrive_root rfl (hty.entry_root hplaced.slot rfl) hv hsplit hname hnone
    .root (.inl hs) (fun _ _ _ _ _ => .inl hs) (by decide)

end EitanOS
