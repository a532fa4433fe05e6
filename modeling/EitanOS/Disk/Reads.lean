import EitanOS.Disk.View

/-!
# Reading from a drive

What the calls that change nothing return on a drive that shows a map of files.

* **`Shows.readFileMetadata_file`**, `Shows.readFileMetadata_folder`, `Shows.readFileMetadata_none`: size and type.
* **`Shows.readFile_file`**: the bytes of a file, in a buffer of its size.
* `names d r cs`: the names in a folder, in their order on the drive. **`Shows.names_spec`**: they are those of the
  map. **`Shows.listDir_names`**: a listing has these names, and says which of them are directories.
-/

namespace EitanOS

open Bytes Names FileMap

variable {d : Drive} {r i : ℕ} {cs : List (List UInt8)} {path c data : List UInt8}
  {M : Files (List UInt8) (List UInt8)} {x : Node (List UInt8)}

/-- The names in a folder, and none where no folder is. -/
def names (d : Drive) (r : ℕ) (cs : List (List UInt8)) : List (List UInt8) :=
  match (dirTree d (diskTable d) r).walk r cs with
  | none => []
  | some i => ((dirTree d (diskTable d) r).entries i).map Prod.fst

namespace Shows

theorem lookup_none (h : Shows d r M) (hM : isValidPath path = true → M (strSplit path slash) = none)
    (junk : Junk) : lookup junk d path = none := by
  by_cases hv : isValidPath path = true
  · rw [h.treeOk.lookup_cases hv junk, (h.resolve_iff hv).2 (hM hv)]
    rfl
  · exact if_neg hv

theorem lookup_some (h : Shows d r M) (hv : isValidPath path = true) (hM : M (strSplit path slash) = some x) :
    ∃ i, (dirTree d (diskTable d) r).Path (strSplit path slash) i ∧ nodeAt d i = x ∧
      ∀ junk, resolve junk d path = some i ∧ lookup junk d path = some (diskTable d i) := by
  obtain ⟨i, hp⟩ := h.ne_none_iff.1 (hM ▸ Option.some_ne_none x)
  have hres (junk : Junk) : resolve junk d path = some i := by
    rw [h.treeOk.resolve_walk hv, h.treeOk.walk_iff.2 hp]
  refine ⟨i, hp, Option.some.inj ((h.of_path hp).symm.trans hM), fun junk => ⟨hres junk, ?_⟩⟩
  rw [h.treeOk.lookup_cases hv junk, hres]
  rfl

/-! ## Files -/

theorem readFileMetadata_none (h : Shows d r M)
    (hM : isValidPath path = true → M (strSplit path slash) = none) (junk : Junk) (nameOut : Buf) :
    readFileMetadata junk d path nameOut = none := by
  rw [readFileMetadata, h.lookup_none hM]
  rfl

theorem file_entry (hn : nodeAt d i = .file data) :
    (diskTable d i).IsFile ∧ (List.range (diskTable d i).size.toNat).map (content d (diskTable d i)) = data := by
  unfold nodeAt at hn
  split_ifs at hn with hf
  exact ⟨hf, Node.file.inj hn⟩

theorem readFileMetadata_file (h : Shows d r M) (hv : isValidPath path = true)
    (hM : M (strSplit path slash) = some (.file data)) (junk : Junk) (nameOut : Buf) :
    ∃ m, readFileMetadata junk d path nameOut = some m ∧ m.size = data.length ∧ m.type = FileType.file.code := by
  obtain ⟨i, -, hn, hres⟩ := h.lookup_some hv hM
  obtain ⟨hf, hdata⟩ := file_entry hn
  refine ⟨_, by rw [readFileMetadata, (hres junk).2]; rfl, ?_, hf⟩
  rw [← hdata, List.length_map, List.length_range]

theorem readFile_file (h : Shows d r M) (hv : isValidPath path = true)
    (hM : M (strSplit path slash) = some (.file data)) (junk : Junk) (dataOut : Buf) :
    ∃ e b, lookup junk d path = some e ∧ e.size.toNat = data.length ∧ readFile junk d path dataOut = some b ∧
      (List.range data.length).map b = data := by
  obtain ⟨i, hp, hn, hres⟩ := h.lookup_some hv hM
  obtain ⟨hf, hdata⟩ := file_entry hn
  have hok := h.treeOk
  obtain ⟨hlt, hl⟩ := hok.live_of_path hp
  have hsize : (diskTable d i).size.toNat ≤ 255 * 512 :=
    ((h.plain i hlt hl).resolve_left fun hfolder => hfolder.not_isFile hf).2
  have hlen : (diskTable d i).size.toNat = data.length := by
    rw [← hdata, List.length_map, List.length_range]
  refine ⟨_, _, (hres junk).2, hlen, by rw [readFile, (hres junk).2]; rfl, ?_⟩
  rw [← hlen, ← hdata]
  refine List.map_congr_left fun k hk => ?_
  have hk := List.mem_range.1 hk
  have hb := hok.extents.bounds hlt hl hk
  exact readSectors_apply hsize hok.sectors_le (by omega) hk

/-! ## Folders -/

theorem names_eq (h : Shows d r M) (hp : (dirTree d (diskTable d) r).Path cs i) :
    names d r cs = ((dirTree d (diskTable d) r).entries i).map Prod.fst := by
  rw [names, h.treeOk.walk_iff.2 hp]

theorem entries_nil (hf : ¬ IsFolder (diskTable d) i) : (dirTree d (diskTable d) r).entries i = [] := if_neg hf

theorem folder_of_mem_entries {y : List UInt8 × ℕ} (hy : y ∈ (dirTree d (diskTable d) r).entries i) :
    IsFolder (diskTable d) i := by
  by_contra hf
  rw [entries_nil hf] at hy
  cases hy

/-- **The names in a folder** are those of the map, each once. -/
theorem names_spec (h : Shows d r M) (cs : List (List UInt8)) :
    (names d r cs).Nodup ∧ ∀ c, c ∈ names d r cs ↔ M (cs ++ [c]) ≠ none := by
  have hok := h.treeOk
  have hchild (c : List UInt8) : M (cs ++ [c]) ≠ none ↔
      ∃ i x, (dirTree d (diskTable d) r).Path cs i ∧ (c, x) ∈ (dirTree d (diskTable d) r).entries i := by
    rw [h.ne_none_iff]
    constructor
    · rintro ⟨x, hx⟩
      obtain ⟨q, hq, -, hm⟩ := hx.last
      exact ⟨q, x, hq, hm⟩
    · rintro ⟨i, x, hp, hx⟩
      exact ⟨x, hp.snoc (hok.folder_iff.2 (folder_of_mem_entries hx)) hx⟩
  simp only [hchild]
  cases hw : (dirTree d (diskTable d) r).walk r cs with
  | none =>
    rw [names, hw]
    refine ⟨List.nodup_nil, fun c => ⟨fun hc => (List.not_mem_nil hc).elim, ?_⟩⟩
    rintro ⟨i, x, hp, -⟩
    cases hw.symm.trans (hok.walk_iff.2 hp)
  | some i =>
    have hp := hok.walk_iff.1 hw
    rw [h.names_eq hp]
    refine ⟨?_, fun c => ?_⟩
    · by_cases hf : IsFolder (diskTable d) i
      · exact hok.tree.names i (hok.folder_iff.2 hf)
      · rw [entries_nil hf]
        exact List.nodup_nil
    · rw [List.mem_map]
      constructor
      · rintro ⟨⟨c, x⟩, hx, rfl⟩
        exact ⟨i, x, hp, hx⟩
      · rintro ⟨q, x, hq, hx⟩
        obtain rfl : q = i := hp.node_unique hok.tree hq
        exact ⟨(c, x), hx, rfl⟩

theorem isDir_entry (h : Shows d r M) (hp : (dirTree d (diskTable d) r).Path cs i)
    (hfolder : IsFolder (diskTable d) i) {y : List UInt8 × ℕ} (hy : y ∈ dirEntries d (diskTable d i)) :
    (diskTable d y.2).IsDir ↔ M (cs ++ [y.1]) = some .folder := by
  have hok := h.treeOk
  have hmem : y ∈ (dirTree d (diskTable d) r).entries i := by rwa [TreeOk.entries_eq hfolder]
  have hpath := hp.snoc (hok.folder_iff.2 hfolder) hmem
  obtain ⟨hlt, hl⟩ := hok.live_of_path hpath
  rw [h.folder_iff hpath]
  refine ⟨fun hdir => ⟨hlt, hl, .inl hdir⟩, fun hf => hf.2.2.resolve_right fun hroot => ?_⟩
  -- the root is in no folder
  have hr : y.2 = r := hok.root_unique _ hlt hl hroot
  rw [hr] at hpath
  exact absurd (hpath.unique hok.tree .root) (by simp)

/-- **A listing** is never empty: there is none for an empty folder. -/
theorem listDir_names (h : Shows d r M) (hv : isValidPath path = true)
    (hM : M (strSplit path slash) = some .folder) (junk : Junk) :
    (listDir junk d path = some none ∧ names d r (strSplit path slash) = []) ∨
      ∃ l, listDir junk d path = some (some l) ∧ l.map (fun m => cstr m.name 60) = names d r (strSplit path slash) ∧
        names d r (strSplit path slash) ≠ [] ∧
        ∀ m ∈ l, m.type = FileType.directory.code ↔ M (strSplit path slash ++ [cstr m.name 60]) = some .folder := by
  obtain ⟨i, hp, -, hres⟩ := h.lookup_some hv hM
  have hfolder := (h.folder_iff hp).1 hM
  have hi := (hres junk).1
  rw [h.names_eq hp, TreeOk.entries_eq hfolder]
  obtain ⟨⟨o, e⟩, hsome, hrecords, -⟩ := h.treeOk.listsExactly_folder hv hi hfolder
  rw [e]
  cases o with
  | none =>
    refine .inl ⟨rfl, ?_⟩
    by_contra hne
    obtain ⟨l, hlist⟩ := hsome hv i hi hfolder fun hnil => hne (by rw [hnil]; rfl)
    cases e.symm.trans hlist
  | some l =>
    obtain ⟨q, hq, -, hne, hmap⟩ := hrecords l e
    obtain rfl : i = q := Option.some.inj (hi.symm.trans hq)
    refine .inr ⟨l, rfl, ?_, by simpa using hne, fun m hm => ?_⟩
    · have := congrArg (List.map Prod.fst) hmap
      simpa [List.map_map, Function.comp_def] using this
    · have hrecord : (cstr m.name 60, m.type, m.size) ∈ (dirEntries d (diskTable d i)).map fun x =>
          (x.1, (diskTable d x.2).type, (diskTable d x.2).size.toNat) :=
        hmap ▸ List.mem_map_of_mem (f := fun m : FileMetadata => (cstr m.name 60, m.type, m.size)) hm
      obtain ⟨y, hy, e'⟩ := List.mem_map.1 hrecord
      obtain ⟨hname, htype⟩ := Prod.mk.inj e'
      rw [← hname, ← (Prod.mk.inj htype).1]
      exact h.isDir_entry hp hfolder hy

theorem listDir_none (h : Shows d r M) (hM : isValidPath path = true → M (strSplit path slash) = none)
    (junk : Junk) : listDir junk d path = some none := EitanOS.listDir_none (h.lookup_none hM)

end Shows

end EitanOS
