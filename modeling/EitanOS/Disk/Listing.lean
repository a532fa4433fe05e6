import EitanOS.Disk.Create

/-!
# Listing directories

`filesystem_list_dir` reads whatever the path resolves to, takes its bytes for directory records and looks
up the index of each in the file table.

* `listDir_records`: what it returns for an entry whose bytes can be read.
* `ListsExactly`: the call returns, null for all but a folder with entries, one record for each of them,
  and looks up no index behind the table (`listDirIndices`). **`listing_exact`**: this holds exactly where the path is no file of
  64 bytes or more.
-/

namespace EitanOS

open Bytes Names

/-! ## The table entries that are looked at -/

/-- The indices the loop of `resolve_path` looks up: those of the folders on the way, and those of the
records whose name fits, up to the one that is taken. -/
def resolveLoopIndices (d : Drive) (t : FileTable) : Junk → ℕ → List (List UInt8) → List ℕ
  | _, _, [] => []
  | junk, current, part :: parts =>
    let e := t current
    if e.size = 0 then [current]
    else
      let entries := readSectors d e.startSector.toNat junk.buf e.size.toNat
      let test := fun j =>
        strcmp (dirName entries j) (toBuf part) && (t (dirIndex entries j)).Live &&
          ((t (dirIndex entries j)).IsDir || parts.isEmpty)
      let records := List.range (e.size.toNat / 64)
      let tried := (records.takeWhile fun j => !test j) ++ (records.find? test).toList
      let fitting := tried.filter fun j => strcmp (dirName entries j) (toBuf part)
      current :: fitting.map (dirIndex entries) ++
        match records.find? test with
        | none => []
        | some j => resolveLoopIndices d t (junk.sub 0) (dirIndex entries j) parts

/-- The indices `filesystem_read_file` and its siblings look up. (`find_root` goes through the table from
its first entry to its last.) -/
def lookupIndices (junk : Junk) (d : Drive) (path : List UInt8) : List ℕ :=
  if isValidPath path then
    let t := loadFileTable (junk.sub 0) d
    match findRoot t with
    | none => []
    | some root => resolveLoopIndices d t (junk.sub 1) root (strSplit path slash) ++
        (resolvePath (junk.sub 1) d t path).toList
  else []

/-- The indices `filesystem_list_dir` looks up. -/
def listDirIndices (junk : Junk) (d : Drive) (path : List UInt8) : List ℕ :=
  if isValidPath path then
    lookupIndices (junk.sub 0) d path ++
      if fileExists (junk.sub 0) d path then
        lookupIndices (junk.sub 1) d path ++
          match readFileMetadata (junk.sub 1) d path junk.buf with
          | none => []
          | some metadata =>
            if metadata.size < 64 then []
            else
              lookupIndices (junk.sub 2) d path ++
                match readFile (junk.sub 2) d path (junk.sub 3).buf with
                | none => []
                | some entries => (List.range (metadata.size / 64)).map (dirIndex entries)
      else []
  else []

variable {d d' : Drive} {t : FileTable} {r i j q size : ℕ} {path : List UInt8} {data : Buf}
  {type : FileType} {junk : Junk} {e : FileEntry}

/-- **What listing a path should give**, for every path. -/
def ListsExactly (junk : Junk) (d : Drive) (path : List UInt8) : Prop :=
  (∃ o, listDir junk d path = some o) ∧
  (isValidPath path = true → ∀ q, resolve junk d path = some q → IsFolder (diskTable d) q →
    dirEntries d (diskTable d q) ≠ [] → ∃ l, listDir junk d path = some (some l)) ∧
  (∀ l, listDir junk d path = some (some l) → ∃ q, resolve junk d path = some q ∧
    IsFolder (diskTable d) q ∧ dirEntries d (diskTable d q) ≠ [] ∧
    l.map (fun m => (cstr m.name 60, m.type, m.size)) = (dirEntries d (diskTable d q)).map fun x =>
      (x.1, (diskTable d x.2).type, (diskTable d x.2).size.toNat)) ∧
  ∀ i ∈ listDirIndices junk d path, i < 640

/-! ## What the call returns -/

theorem listDir_eq (junk : Junk) (hv : isValidPath path = true)
    (hl : ∀ junk, lookup junk d path = some e) :
    listDir junk d path = if e.size.toNat < 64 then some none else
      let entries := readSectors d e.startSector.toNat (junk.sub 3).buf e.size.toNat
      if ∀ j < e.size.toNat / 64, dirIndex entries j < 640 then
        some (some (listings (loadFileTable (junk.sub 4) d) entries (e.size.toNat / 64)))
      else none := by
  unfold listDir fileExists readFileMetadata readFile
  rw [hv, hl, hl, hl]
  rfl

theorem listDir_none (hl : ∀ junk, lookup junk d path = none) : listDir junk d path = some none := by
  unfold listDir fileExists
  rw [hl, Option.isSome_none, Bool.and_false]
  rfl

theorem cstr_record {b : Buf} (h : (cstr b 60).length < 60) :
    cstr (put (put (fun _ => 0) 0 b 60) 59 (fun _ => 0) 1) 60 = cstr b 60 := by
  have hb : ∀ k < 59, put (put (fun _ => 0) 0 b 60) 59 (fun _ => 0) 1 k = b k := by
    intro k hk
    rw [put_outside (by omega), put_inside (by omega) (by omega), Nat.sub_zero]
  refine cstr_eq h zero_notMem_cstr (fun k hk => ?_) ?_
  · rw [hb k (by omega), getElem_cstr]
  · by_cases hlen : (cstr b 60).length < 59
    · rw [hb _ hlen, apply_length_cstr h]
    · rw [put_inside (by omega) (by omega)]

theorem length_cstr_record (b : Buf) : (cstr (put b 59 (fun _ => 0) 1) 60).length < 60 := by
  by_contra h
  have hlt : 59 < (cstr (put b 59 (fun _ => 0) 1) 60).length := by omega
  have e := getElem_cstr hlt
  rw [put_inside (by omega) (by omega)] at e
  exact zero_notMem_cstr (e ▸ List.getElem_mem hlt)

/-- **One record for each entry**, where the bytes of the entry can be read. -/
theorem listDir_records (junk : Junk) (hv : isValidPath path = true)
    (hl : ∀ junk, lookup junk d path = some e) (hs : 64 ≤ e.size.toNat) (hread : ∀ target, ∀ k < e.size.toNat,
      readSectors d e.startSector.toNat target e.size.toNat k = content d e k)
    (hnames : ∀ x ∈ dirEntries d e, x.1.length < 60 ∧ x.2 < 640) :
    ∃ l, listDir junk d path = some (some l) ∧ l.map (fun m => (cstr m.name 60, m.type, m.size)) =
      (dirEntries d e).map fun x => (x.1, (loadFileTable (junk.sub 4) d x.2).type,
        (loadFileTable (junk.sub 4) d x.2).size.toNat) := by
  have hentry := fun j hj => entry_congr (j := j) (hread (junk.sub 3).buf) hj
  unfold dirEntries at hnames ⊢
  have hindex : ∀ j < e.size.toNat / 64,
      dirIndex (readSectors d e.startSector.toNat (junk.sub 3).buf e.size.toNat) j < 640 := by
    intro j hj
    rw [(hentry j hj).2]
    exact (hnames _ (List.mem_map_of_mem (List.mem_range.2 hj))).2
  refine ⟨_, by rw [listDir_eq junk hv hl, if_neg (by omega), if_pos hindex], ?_⟩
  rw [listings, List.map_map, List.map_map]
  refine List.map_congr_left fun j hj => ?_
  obtain ⟨h₁, h₂⟩ := hentry j (List.mem_range.1 hj)
  have hlen := (hnames _ (List.mem_map_of_mem hj)).1
  dsimp only [Function.comp_apply] at hlen ⊢
  rw [← h₁] at hlen ⊢
  rw [← h₂, cstr_record hlen]
  rfl

/-! ## The indices -/

theorem TreeOk.resolveLoopIndices_lt (h : TreeOk d t r) {parts : List (List UInt8)}
    (hq : parts ≠ [] → IsFolder t q) (junk : Junk) :
    ∀ i ∈ resolveLoopIndices d t junk q parts, i < 640 := by
  induction parts generalizing q junk with
  | nil => exact fun i hi => absurd hi List.not_mem_nil
  | cons part parts ih =>
    have hf := hq (List.cons_ne_nil _ _)
    intro i hi
    rw [resolveLoopIndices] at hi
    dsimp only at hi
    split_ifs at hi with h₀
    · rw [List.mem_singleton.1 hi]
      exact hf.1
    · generalize hb : readSectors d (t q).startSector.toNat junk.buf (t q).size.toNat = entries at hi
      have hidx : ∀ j ∈ List.range ((t q).size.toNat / 64), dirIndex entries j < 640 := by
        intro j hj
        have hread : ∀ k < (t q).size.toNat, entries k = content d (t q) k := fun k hk => by
          rw [← hb]
          exact h.readSectors_folder hf hk
        rw [(entry_congr hread (List.mem_range.1 hj)).2]
        exact (h.live q hf _ (List.mem_map_of_mem hj)).1
      rw [List.cons_append, List.mem_cons, List.mem_append] at hi
      rcases hi with rfl | hi | hi
      · exact hf.1
      · obtain ⟨j, hj, rfl⟩ := List.mem_map.1 hi
        refine hidx j ?_
        rcases List.mem_append.1 (List.mem_filter.1 hj).1 with hj | hj
        · exact List.takeWhile_subset _ hj
        · exact List.mem_of_find?_eq_some (Option.mem_toList.1 hj)
      · split at hi
        · exact absurd hi List.not_mem_nil
        · rename_i j hj
          refine ih (fun hn => ?_) _ i hi
          -- the record that is taken is for a directory, unless it is the last
          have htest := List.find?_some hj
          simp only [Bool.and_eq_true, Bool.or_eq_true, decide_eq_true_eq, List.isEmpty_iff] at htest
          exact ⟨hidx j (List.mem_of_find?_eq_some hj), htest.1.2, .inl (htest.2.resolve_right hn)⟩

theorem findRoot_folder (e : findRoot t = some r) : IsFolder t r := by
  unfold findRoot at e
  have hr := List.find?_some e
  rw [decide_eq_true_eq] at hr
  exact ⟨List.mem_range.1 (List.mem_of_find?_eq_some e), hr.1, .inr hr.2⟩

theorem TreeOk.lookupIndices_lt (h : TreeOk d (diskTable d) r) (junk : Junk) (path : List UInt8) :
    ∀ i ∈ lookupIndices junk d path, i < 640 := by
  have hload := (h.load fun j hj => h.loadFileTable_eq (junk.sub 0) hj).1
  intro i hi
  unfold lookupIndices at hi
  split_ifs at hi with hv
  · dsimp only at hi
    split at hi
    · exact absurd hi List.not_mem_nil
    · rename_i root hroot
      rcases List.mem_append.1 hi with hi | hi
      · exact hload.resolveLoopIndices_lt (fun _ => findRoot_folder hroot) _ i hi
      · exact (h.live_of_path (h.path_of_resolve hv (Option.mem_toList.1 hi))).1
  · exact absurd hi List.not_mem_nil

/-- **The listing looks up no index behind the table**, if the records do not. -/
theorem TreeOk.listDirIndices_lt (h : TreeOk d (diskTable d) r) {o : Option FileEntry}
    (hl : ∀ junk, lookup junk d path = o) (hrec : ∀ e, o = some e → 64 ≤ e.size.toNat →
      ∀ target, ∀ j < e.size.toNat / 64,
        dirIndex (readSectors d e.startSector.toNat target e.size.toNat) j < 640) :
    ∀ i ∈ listDirIndices junk d path, i < 640 := by
  intro i hi
  unfold listDirIndices fileExists readFileMetadata readFile at hi
  rw [hl, hl, hl] at hi
  by_cases hv : isValidPath path = true
  · rw [if_pos hv] at hi
    rcases List.mem_append.1 hi with hi | hi
    · exact h.lookupIndices_lt _ _ i hi
    · cases o with
      | none => exact absurd hi (by simp)
      | some e =>
        rw [Option.isSome_some, if_pos rfl, Option.map_some, Option.map_some] at hi
        dsimp only at hi
        rcases List.mem_append.1 hi with hi | hi
        · exact h.lookupIndices_lt _ _ i hi
        · split_ifs at hi with hs
          · exact absurd hi List.not_mem_nil
          · rcases List.mem_append.1 hi with hi | hi
            · exact h.lookupIndices_lt _ _ i hi
            · obtain ⟨j, hj, rfl⟩ := List.mem_map.1 hi
              exact hrec e rfl (by omega) _ j (List.mem_range.1 hj)
  · rw [if_neg hv] at hi
    exact absurd hi List.not_mem_nil

/-! ## When listing is exact -/

theorem TreeOk.lookup_cases (h : TreeOk d (diskTable d) r) (hv : isValidPath path = true)
    (junk junk' : Junk) : lookup junk' d path = (resolve junk d path).map (diskTable d) := by
  rw [h.resolve_walk hv]
  cases e : (dirTree d (diskTable d) r).walk r (strSplit path slash) with
  | some i => exact h.lookup_eq junk' hv e
  | none =>
    unfold lookup
    dsimp only
    rw [if_pos hv, h.resolve_eq _ _ (validPath_head hv) (validPath_components hv).1, e]
    rfl

theorem TreeOk.listsExactly_folder (h : TreeOk d (diskTable d) r) (hv : isValidPath path = true)
    (hi : resolve junk d path = some i) (hf : IsFolder (diskTable d) i) : ListsExactly junk d path := by
  have hlook : ∀ junk', lookup junk' d path = some (diskTable d i) := fun junk' => by
    rw [h.lookup_cases hv junk, hi]
    rfl
  have hread : ∀ target, ∀ k < (diskTable d i).size.toNat, readSectors d
      (diskTable d i).startSector.toNat target (diskTable d i).size.toNat k = content d (diskTable d i) k :=
    fun target k hk => h.readSectors_folder hf hk
  have hlen := length_dirEntries d (diskTable d i)
  have hrecords := fun hs => listDir_records junk hv hlook hs hread fun x hx =>
    ⟨(h.names i hf x hx).2, (h.live i hf x hx).1⟩
  refine ⟨?_, fun _ q hq _ hn => ?_, fun l hlist => ⟨i, hi, hf, ?_⟩,
    h.listDirIndices_lt hlook fun e he hs target j hj => ?_⟩
  · by_cases hs : 64 ≤ (diskTable d i).size.toNat
    · obtain ⟨l, hl, -⟩ := hrecords hs
      exact ⟨_, hl⟩
    · rw [listDir_eq junk hv hlook, if_pos (by omega)]
      exact ⟨_, rfl⟩
  · obtain rfl : i = q := Option.some.inj (hi.symm.trans hq)
    have hpos := List.length_pos_iff.2 hn
    obtain ⟨l, hl, -⟩ := hrecords (by omega)
    exact ⟨l, hl⟩
  · have hs : 64 ≤ (diskTable d i).size.toNat := by
      by_contra hs
      rw [listDir_eq junk hv hlook, if_pos (by omega)] at hlist
      cases hlist
    obtain ⟨l', hl', hmap⟩ := hrecords hs
    obtain rfl := Option.some.inj (Option.some.inj (hlist.symm.trans hl'))
    refine ⟨fun hnil => ?_, hmap.trans (List.map_congr_left fun x hx => ?_)⟩
    · rw [hnil, List.length_nil] at hlen
      omega
    · rw [h.loadFileTable_eq _ (h.live i hf x hx).1]
  · cases he
    rw [(entry_congr (hread target) hj).2]
    exact (h.live i hf _ (List.mem_map_of_mem (List.mem_range.2 hj))).1

theorem listsExactly_of_none (hnone : listDir junk d path = some none)
    (hf : isValidPath path = true → ∀ q, resolve junk d path = some q → ¬ IsFolder (diskTable d) q)
    (hi : ∀ i ∈ listDirIndices junk d path, i < 640) : ListsExactly junk d path :=
  ⟨⟨_, hnone⟩, fun hv q hq hfq => absurd hfq (hf hv q hq),
    fun _ hl => (by cases hnone.symm.trans hl), hi⟩

/-- **A listing is exact and safe** unless it is of a file of 64 bytes or more. -/
theorem listing_exact (h : WellFormed d) (hu : RootUnlisted d) (h₁ : 642 ≤ d.sectorCount)
    (h₂ : d.sectorCount ≤ 65535) (junk : Junk) (path : List UInt8) : ListsExactly junk d path ↔
      (isValidPath path = true → ∀ i, resolve junk d path = some i → ¬ IsFolder (diskTable d) i →
        (diskTable d i).size.toNat < 64) := by
  obtain ⟨r, hd⟩ := h.sound hu h₁ h₂
  have hok := hd.treeOk
  by_cases hv : isValidPath path = true
  · have hlook := fun junk' => hok.lookup_cases hv junk junk'
    cases e : resolve junk d path with
    | none =>
      rw [e, Option.map_none] at hlook
      refine iff_of_true (listsExactly_of_none (listDir_none hlook) ?_ ?_) (by simp)
      · simp [e]
      · exact hok.listDirIndices_lt hlook (by simp)
    | some i =>
      rw [e, Option.map_some] at hlook
      have hlist := listDir_eq junk hv hlook
      simp only [hv, Option.some.injEq, forall_eq', true_imp_iff]
      by_cases hf : IsFolder (diskTable d) i
      · exact iff_of_true (hok.listsExactly_folder hv e hf) fun hnot => absurd hf hnot
      · refine ⟨fun hex _ => ?_, fun hs => ?_⟩
        · -- a listing of what is no folder, or none
          by_contra hs
          rw [if_neg hs] at hlist
          dsimp only at hlist
          split_ifs at hlist
          · obtain ⟨q, hq, hfq, -⟩ := hex.2.2.1 _ hlist
            cases e.symm.trans hq
            exact hf hfq
          · obtain ⟨o, ho⟩ := hex.1
            cases hlist.symm.trans ho
        · rw [if_pos (hs hf)] at hlist
          refine listsExactly_of_none hlist (fun _ q hq => ?_) (hok.listDirIndices_lt hlook fun e' he' hs' => ?_)
          · cases e.symm.trans hq
            exact hf
          · cases he'
            exact absurd (hs hf) (by omega)
  · refine iff_of_true (listsExactly_of_none ?_ (fun hv' => absurd hv' hv) fun i hi => ?_) fun hv' =>
      absurd hv' hv
    · rw [listDir, Bool.eq_false_iff.2 hv]
      rfl
    · rw [listDirIndices, if_neg hv] at hi
      exact absurd hi List.not_mem_nil

theorem listing_exact_root : ListsExactly zeroJunk oneFile [47] ∧
    ∃ l, listDir zeroJunk oneFile [47] = some (some l) := by
  obtain ⟨i, h⟩ := oneFile_written
  have hok := h.sound.treeOk
  obtain ⟨hwf, hu⟩ := h.sound.wellFormed
  have hroot : resolve zeroJunk oneFile [47] = some 0 := (hok.resolve_iff (by decide)).2 .root
  have hexact := (listing_exact hwf hu hok.le_sectors hok.sectors_le zeroJunk [47]).mpr
    fun hv i hi hf => by
      cases hroot.symm.trans hi
      exact absurd hok.isFolder_root hf
  exact ⟨hexact, hexact.2.1 (by decide) 0 hroot hok.isFolder_root
    (List.ne_nil_of_mem (oneFile_listed h))⟩

theorem mem_listDirIndices (junk : Junk) (hv : isValidPath path = true)
    (hl : ∀ junk, lookup junk d path = some e) (hj : j < e.size.toNat / 64) :
    dirIndex (readSectors d e.startSector.toNat (junk.sub 3).buf e.size.toNat) j ∈
      listDirIndices junk d path := by
  have hs : ¬ e.size.toNat < 64 := by omega
  unfold listDirIndices fileExists readFileMetadata readFile
  rw [hl, hl, hl, if_pos hv, Option.isSome_some, if_pos rfl, Option.map_some, Option.map_some]
  dsimp only
  rw [if_neg hs]
  simp only [List.mem_append]
  exact .inr (.inr (.inr (List.mem_map_of_mem (List.mem_range.2 hj))))

/-- A drive with one file of 64 bytes `b`, `/a`. -/
def longFile (b : UInt8) : Drive := (writeFile zeroJunk freshDrive [47, 97] (fun _ => b) .file 64).2

theorem longFile_written (b : UInt8) : ∃ i, Written freshDrive (longFile b) 0 i [[97]] (fun _ => b) 64 := by
  have hroom : (createdTable freshDrive rootTable 0 .file 64).isSome = true := by decide +kernel
  obtain ⟨T, hT⟩ := Option.isSome_iff_exists.1 hroom
  have hv : isValidPath [47, 97] = true := by decide
  obtain ⟨d', e, -⟩ := writeFile_freshDrive hv (by decide) rfl (.of_ne (by decide)) hT fun _ => b
  have he : writeFile zeroJunk freshDrive [47, 97] (fun _ => b) .file 64 = (true, longFile b) := by
    rw [longFile, e]
  exact written_freshDrive (by decide) rfl (by decide) he

theorem longFile_resolve (b : UInt8) : ∃ i, DiskSound (longFile b) 0 ∧
    resolve zeroJunk (longFile b) [47, 97] = some i ∧ (diskTable (longFile b) i).IsFile ∧
    (diskTable (longFile b) i).size.toNat = 64 ∧
    (∀ junk, lookup junk (longFile b) [47, 97] = some (diskTable (longFile b) i)) ∧
    dirIndex (readSectors (longFile b) (diskTable (longFile b) i).startSector.toNat (zeroJunk.sub 3).buf 64) 0 =
      dirIndex (fun _ => b) 0 := by
  obtain ⟨i, h⟩ := longFile_written b
  have hv : isValidPath [47, 97] = true := by decide
  refine ⟨i, h.sound, (h.sound.treeOk.resolve_walk hv).trans h.here, h.file, h.size_eq, fun junk =>
    h.sound.treeOk.lookup_eq junk hv h.here, ?_⟩
  refine (entry_congr (n := 64) (fun k hk => ?_) (by decide)).2
  rw [← h.size_eq]
  exact h.readSectors_eq (by decide) _ hk

/-- **Listing a file**: its bytes are taken for a record. Zeros are one for entry 0, the root; sevens are
one for the entry with index `0x07070707`. -/
theorem list_regular_file : (∀ b, WellFormed (longFile b) ∧ RootUnlisted (longFile b) ∧
      642 ≤ (longFile b).sectorCount ∧ (longFile b).sectorCount ≤ 65535 ∧
      ∃ i, resolve zeroJunk (longFile b) [47, 97] = some i ∧ (diskTable (longFile b) i).IsFile) ∧
    isValidPath [47, 97] = true ∧ (∃ m, listDir zeroJunk (longFile 0) [47, 97] = some (some [m])) ∧
    0x07070707 ∈ listDirIndices zeroJunk (longFile 7) [47, 97] := by
  have hv : isValidPath [47, 97] = true := by decide
  refine ⟨fun b => ?_, hv, ?_, ?_⟩
  · obtain ⟨i, hs, hi, hfile, -⟩ := longFile_resolve b
    obtain ⟨hwf, hu⟩ := hs.wellFormed
    exact ⟨hwf, hu, hs.treeOk.le_sectors, hs.treeOk.sectors_le, i, hi, hfile⟩
  · obtain ⟨i, -, -, -, hsize, hlook, hindex⟩ := longFile_resolve 0
    have hone : List.range (64 / 64) = [0] := rfl
    have hlt : ∀ j < 64 / 64, dirIndex (readSectors (longFile 0)
        (diskTable (longFile 0) i).startSector.toNat (zeroJunk.sub 3).buf 64) j < 640 := by
      intro j hj
      obtain rfl : j = 0 := by omega
      rw [hindex]
      decide
    rw [listDir_eq zeroJunk hv hlook, hsize, if_neg (by decide), if_pos hlt, listings, hone,
      List.map_singleton]
    exact ⟨_, rfl⟩
  · obtain ⟨i, -, -, -, hsize, hlook, hindex⟩ := longFile_resolve 7
    have hmem := mem_listDirIndices (j := 0) zeroJunk hv hlook (by omega)
    have hvalue : dirIndex (fun _ => 7) 0 = 0x07070707 := by decide
    rwa [hsize, hindex, hvalue] at hmem

end EitanOS
