import EitanOS.Disk.Writes

/-!
# Reading back what was written

* `WellFormed d`: one root, every other entry listed once and reachable, proper names in every
  folder, and extents in order. `RootUnlisted d`: no folder lists the root.
* `WellFormed.sound`, `DiskSound.wellFormed`: together they say that the drive holds a tree.
* **`write_then_read`**: a file written to a path can be read back from there, every other path leads
  where it did, and every other file keeps its content.
* **`write_through_listed_root`**: where a folder does list the root, a write below that name
  succeeds, and the path does not resolve afterwards.
-/

namespace EitanOS

open Bytes Names

/-- Entry `j` of folder `q` is for entry `i` of the table. -/
def Lists (d : Drive) (q j i : ℕ) : Prop :=
  IsFolder (diskTable d) q ∧ ∃ name, (dirEntries d (diskTable d q))[j]? = some (name, i)

/-- Reachable from a root, along the entries of folders. -/
inductive Reachable (d : Drive) : ℕ → Prop
  | root {r} : r < 640 → (diskTable d r).Live → (diskTable d r).IsRoot → Reachable d r
  | step {q j i} : Reachable d q → Lists d q j i → Reachable d i

/-- **A drive in order.** -/
structure WellFormed (d : Drive) : Prop where
  root : ∃ r < 640, (diskTable d r).Live ∧ (diskTable d r).IsRoot ∧
    ∀ i < 640, (diskTable d i).Live → (diskTable d i).IsRoot → i = r
  listed : ∀ i < 640, (diskTable d i).Live → ¬ (diskTable d i).IsRoot →
    ∃ q j, Lists d q j i ∧ ∀ q' j', Lists d q' j' i → q' = q ∧ j' = j
  reachable : ∀ i < 640, (diskTable d i).Live → ¬ (diskTable d i).IsRoot → Reachable d i
  live : ∀ q j i, Lists d q j i → i < 640 ∧ (diskTable d i).Live
  distinct : ∀ q, IsFolder (diskTable d) q → ((dirEntries d (diskTable d q)).map Prod.fst).Nodup
  names : ∀ q, IsFolder (diskTable d) q → ∀ x ∈ dirEntries d (diskTable d q),
    x.1 ≠ [] ∧ x.1.length < 60
  extents : ExtentsOk d.sectorCount (diskTable d)

/-- No folder lists the root. -/
def RootUnlisted (d : Drive) : Prop := ∀ q j i, Lists d q j i → ¬ (diskTable d i).IsRoot

variable {d d' : Drive} {r q i j : ℕ}

theorem Lists.mem {x : List UInt8 × ℕ} (hq : IsFolder (diskTable d) q)
    (hx : x ∈ dirEntries d (diskTable d q)) : ∃ j, Lists d q j x.2 := by
  obtain ⟨j, hj⟩ := List.mem_iff_getElem?.1 hx
  exact ⟨j, hq, x.1, hj⟩

theorem WellFormed.lists_unique (h : WellFormed d) (hu : RootUnlisted d) {q' j' : ℕ}
    (h₁ : Lists d q j i) (h₂ : Lists d q' j' i) : q = q' ∧ j = j' := by
  obtain ⟨hi, hl⟩ := h.live q j i h₁
  obtain ⟨p, k, -, hk⟩ := h.listed i hi hl (hu q j i h₁)
  obtain ⟨rfl, rfl⟩ := hk q j h₁
  obtain ⟨rfl, rfl⟩ := hk q' j' h₂
  exact ⟨rfl, rfl⟩

theorem WellFormed.tree (h : WellFormed d) (hu : RootUnlisted d)
    (hf : ∀ {q}, (dirTree d (diskTable d) r).Folder q ↔ IsFolder (diskTable d) q)
    (hr : (diskTable d r).IsRoot) : (dirTree d (diskTable d) r).Ok where
  names q hq := by
    rw [hf] at hq
    rw [TreeOk.entries_eq hq]
    exact h.distinct q hq
  nodes q hq := by
    rw [hf] at hq
    rw [TreeOk.entries_eq hq, List.nodup_iff_getElem?_ne_getElem?]
    intro j j' hj hj' e
    rw [List.length_map] at hj'
    simp only [List.getElem?_map, List.getElem?_eq_getElem hj',
      List.getElem?_eq_getElem (hj.trans hj'), Option.map_some, Option.some.injEq] at e
    have h₁ : Lists d q j (dirEntries d (diskTable d q))[j].2 :=
      ⟨hq, _, List.getElem?_eq_getElem (hj.trans hj')⟩
    have h₂ : Lists d q j' (dirEntries d (diskTable d q))[j].2 := by
      rw [e]
      exact ⟨hq, _, List.getElem?_eq_getElem hj'⟩
    exact hj.ne (h.lists_unique hu h₁ h₂).2
  parent q q' x x' hq hq' hx hx' e := by
    rw [hf] at hq hq'
    rw [TreeOk.entries_eq hq] at hx
    rw [TreeOk.entries_eq hq'] at hx'
    obtain ⟨j, hj⟩ := Lists.mem hq hx
    obtain ⟨j', hj'⟩ := Lists.mem hq' hx'
    rw [← e] at hj'
    exact (h.lists_unique hu hj hj').1
  root q x hq hx e := by
    rw [hf] at hq
    rw [TreeOk.entries_eq hq] at hx
    obtain ⟨j, hj⟩ := Lists.mem hq hx
    exact hu q j x.2 hj (e ▸ hr)

/-- **A drive in order whose root is not listed holds a tree.** -/
theorem WellFormed.sound (h : WellFormed d) (hu : RootUnlisted d) (h₁ : 642 ≤ d.sectorCount)
    (h₂ : d.sectorCount ≤ 65535) : ∃ r, DiskSound d r := by
  obtain ⟨r, hr, hl, hroot, huniq⟩ := h.root
  have hf {q : ℕ} : (dirTree d (diskTable d) r).Folder q ↔ IsFolder (diskTable d) q :=
    folder_dirTree ⟨hr, hl, hroot⟩ huniq
  have hpath : ∀ i, Reachable d i → ∃ cs, (dirTree d (diskTable d) r).Path cs i := by
    intro i hi
    induction hi with
    | root h₁ h₂ h₃ =>
      rw [huniq _ h₁ h₂ h₃]
      exact ⟨[], .root⟩
    | step _ hlist ih =>
      obtain ⟨cs, hcs⟩ := ih
      obtain ⟨hq, name, hj⟩ := hlist
      refine ⟨cs ++ [name], .snoc hcs (hf.2 hq) ?_⟩
      rw [TreeOk.entries_eq hq]
      exact List.mem_of_getElem? hj
  refine ⟨r, ⟨h₁, h₂, ⟨hr, hl, hroot⟩, huniq, fun q hq x hx => ?_, h.names, h.tree hu hf hroot,
    h.extents⟩, fun i hi hli => hpath i ?_⟩
  · obtain ⟨j, hj⟩ := Lists.mem hq hx
    exact h.live q j x.2 hj
  · by_cases hri : (diskTable d i).IsRoot
    · exact .root hi hli hri
    · exact h.reachable i hi hli hri

theorem Lists.mem_entries (h : Lists d q j i) :
    ∃ name, (name, i) ∈ (dirTree d (diskTable d) r).entries q := by
  obtain ⟨hq, name, hj⟩ := h
  rw [TreeOk.entries_eq hq]
  exact ⟨name, List.mem_of_getElem? hj⟩

theorem TreeOk.lists_unique (h : TreeOk d (diskTable d) r) {q' j' : ℕ} (h₁ : Lists d q j i)
    (h₂ : Lists d q' j' i) : q' = q ∧ j' = j := by
  obtain ⟨name₁, hm₁⟩ := h₁.mem_entries (r := r)
  obtain ⟨name₂, hm₂⟩ := h₂.mem_entries (r := r)
  have hq := h.tree.parent _ _ _ _ (h.folder_iff.2 h₂.1) (h.folder_iff.2 h₁.1) hm₂ hm₁ rfl
  subst hq
  refine ⟨rfl, ?_⟩
  have hn := h.tree.nodes q' (h.folder_iff.2 h₁.1)
  rw [TreeOk.entries_eq h₁.1] at hn
  obtain ⟨-, n₁, e₁⟩ := h₁
  obtain ⟨-, n₂, e₂⟩ := h₂
  have hlt : j < ((dirEntries d (diskTable d q')).map Prod.snd).length := by
    rw [List.length_map]
    exact (List.getElem?_eq_some_iff.1 e₁).1
  apply Eq.symm
  apply (List.getElem?_inj hlt hn).1
  rw [List.getElem?_map, List.getElem?_map, e₁, e₂]
  rfl

theorem TreeOk.exists_lists (h : TreeOk d (diskTable d) r) {cs : List (List UInt8)}
    (hp : (dirTree d (diskTable d) r).Path cs i) (hi : ¬ (diskTable d i).IsRoot) :
    ∃ q j, Lists d q j i := by
  cases hp with
  | root => exact absurd h.root.2.2 hi
  | @snoc cs q c p hp hq hm =>
    rw [h.folder_iff] at hq
    rw [TreeOk.entries_eq hq] at hm
    obtain ⟨j, hj⟩ := Lists.mem hq hm
    exact ⟨q, j, hj⟩

theorem TreeOk.reachable (h : TreeOk d (diskTable d) r) {cs : List (List UInt8)}
    (hp : (dirTree d (diskTable d) r).Path cs i) : Reachable d i := by
  induction hp with
  | root => exact .root h.root.1 h.root.2.1 h.root.2.2
  | snoc _ hq hm ih =>
    rw [h.folder_iff] at hq
    rw [TreeOk.entries_eq hq] at hm
    obtain ⟨j, hj⟩ := Lists.mem hq hm
    exact .step ih hj

/-- **A drive that holds a tree is in order**, and its root is not listed. -/
theorem DiskSound.wellFormed (h : DiskSound d r) : WellFormed d ∧ RootUnlisted d := by
  have hok := h.treeOk
  have hlive : ∀ q j i, Lists d q j i → i < 640 ∧ (diskTable d i).Live := by
    rintro q j i ⟨hq, name, hj⟩
    exact hok.live q hq _ (List.mem_of_getElem? hj)
  refine ⟨⟨⟨r, hok.root.1, hok.root.2.1, hok.root.2.2, hok.root_unique⟩, fun i hi hl hri => ?_,
    fun i hi hl _ => ?_, hlive, fun q hq => ?_, hok.names, hok.extents⟩, fun q j i hlist hri => ?_⟩
  · obtain ⟨cs, hp⟩ := h.path i hi hl
    obtain ⟨q, j, hj⟩ := hok.exists_lists hp hri
    exact ⟨q, j, hj, fun q' j' hj' => hok.lists_unique hj hj'⟩
  · obtain ⟨cs, hp⟩ := h.path i hi hl
    exact hok.reachable hp
  · rw [← TreeOk.entries_eq (r := r) hq]
    exact hok.tree.names q (hok.folder_iff.2 hq)
  · obtain ⟨hi, hl⟩ := hlive q j i hlist
    obtain ⟨name, hm⟩ := hlist.mem_entries (r := r)
    exact hok.tree.root q _ (hok.folder_iff.2 hlist.1) hm (hok.root_unique i hi hl hri)

/-! ## Writing and reading -/

/-- `load_file_table`, then `resolve_path`. -/
def resolve (junk : Junk) (d : Drive) (path : List UInt8) : Option ℕ :=
  resolvePath (junk.sub 1) d (loadFileTable (junk.sub 0) d) path

variable {path : List UInt8} {data : Buf} {size : ℕ}

theorem TreeOk.loadFileTable_eq (h : TreeOk d (diskTable d) r) (junk : Junk) {j : ℕ}
    (hj : j < 640) : loadFileTable junk d j = diskTable d j := by
  have h₁ := h.le_sectors
  exact loadFileTable_apply junk (by omega) h.sectors_le hj

/-- **Paths resolve along the tree.** -/
theorem TreeOk.resolve_eq (h : TreeOk d (diskTable d) r) (junk junk' : Junk)
    (hs : path.head? = some slash) (hc : ∀ c ∈ strSplit path slash, Component c) :
    resolvePath junk' d (loadFileTable junk d) path =
      (dirTree d (diskTable d) r).walk r (strSplit path slash) := by
  obtain ⟨hok, e⟩ := h.load fun j hj => h.loadFileTable_eq junk hj
  rw [hok.resolvePath_eq hs hc, e]

theorem TreeOk.lookup_eq (h : TreeOk d (diskTable d) r) (junk : Junk)
    (hv : isValidPath path = true)
    (hw : (dirTree d (diskTable d) r).walk r (strSplit path slash) = some i) :
    lookup junk d path = some (diskTable d i) := by
  have hl := h.live_of_path (h.tree.walk_root.1 hw)
  unfold lookup
  dsimp only
  rw [if_pos hv, h.resolve_eq _ _ (validPath_head hv) (validPath_components hv).1, hw]
  dsimp only
  rw [h.loadFileTable_eq _ hl.1, if_pos hl.2]

theorem TreeOk.fileExists_iff (h : TreeOk d (diskTable d) r) (junk : Junk)
    (hv : isValidPath path = true) : fileExists junk d path =
      ((dirTree d (diskTable d) r).walk r (strSplit path slash)).isSome := by
  cases e : (dirTree d (diskTable d) r).walk r (strSplit path slash) with
  | some i =>
    rw [fileExists, h.lookup_eq junk hv e]
    rfl
  | none =>
    unfold fileExists lookup
    dsimp only
    rw [if_pos hv, h.resolve_eq _ _ (validPath_head hv) (validPath_components hv).1, e]
    rfl

theorem findFileEntrySlot_spec {t : FileTable} (e : findFileEntrySlot t = some i) :
    i < 640 ∧ ¬ (t i).Live := by
  unfold findFileEntrySlot at e
  have h := List.find?_some e
  rw [decide_eq_true_eq] at h
  exact ⟨List.mem_range.1 (List.mem_of_find?_eq_some e), h⟩

theorem validPath_parent (hv : isValidPath path = true) :
    (splitPath path).1.head? = some slash ∧
      ∀ c ∈ strSplit (splitPath path).1 slash, Component c := by
  by_cases hne : path = [slash]
  · subst hne
    exact ⟨rfl, fun c hc => absurd hc List.not_mem_nil⟩
  · obtain ⟨cs, name, hsplit, hhead, hdir, -⟩ := validPath_split hv hne
    refine ⟨hhead, fun c hc => (validPath_components hv).1 c ?_⟩
    rw [hsplit, ← hdir]
    exact List.mem_append_left _ hc

/-- A new entry is no root, or comes behind the root. -/
def RootFirst (d : Drive) (type : FileType) : Prop :=
  type = .rootDirectory → ∀ i, findFileEntrySlot (diskTable d) = some i →
    ∃ r < i, (diskTable d r).Live ∧ (diskTable d r).IsRoot

theorem RootFirst.of_ne {type : FileType} (h : type ≠ .rootDirectory) : RootFirst d type := fun e =>
  absurd e h

theorem findFileEntrySlot_congr {t t' : FileTable} (h : ∀ i < 640, t' i = t i) :
    findFileEntrySlot t' = findFileEntrySlot t :=
  List.find?_congr fun i hi => by rw [h i (List.mem_range.1 hi)]

/-- **The parent of a new entry** is found as if the entry was not there yet. -/
theorem TreeOk.resolve_placed (h : TreeOk d (diskTable d) r) {t : FileTable}
    (ht : ∀ j < 640, t j = diskTable d j) (hslot : findFileEntrySlot t = some i) {type : FileType}
    (hty : RootFirst d type) (start size : UInt32) (hs : path.head? = some slash)
    (hc : ∀ c ∈ strSplit path slash, Component c) (junk : Junk) :
    resolvePath junk d (Function.update t i ⟨magic, type.code, start, size⟩) path =
      (dirTree d (diskTable d) r).walk r (strSplit path slash) := by
  rw [findFileEntrySlot_congr ht] at hslot
  obtain ⟨-, hl⟩ := findFileEntrySlot_spec hslot
  refine h.resolvePath_sameBut (i := i) ⟨fun j hj hji => ?_, fun hf => hl hf.2.1, fun _ _ hr => ?_,
    fun hlive => absurd hlive hl⟩ hs hc (fun csi hp _ => absurd (h.live_of_path hp).2 hl) junk
  · rw [Function.update_of_ne hji, ht j hj]
  · rw [Function.update_self] at hr
    exact hty (FileType.code_inj.1 hr) i hslot

theorem FileType.code_ne_root {type : FileType} (h : type ≠ .rootDirectory) {start size : UInt32} :
    ¬ (FileEntry.mk magic type.code start size).IsRoot := fun hr => h (FileType.code_inj.1 hr)

/-- **What a write that succeeds has done** on a drive in order: it has edited the file at the path, or
made a new entry in its parent. -/
theorem TreeOk.writeFile_cases (h : TreeOk d (diskTable d) r) {junk : Junk} {type : FileType}
    (hty : RootFirst d type) (hs : SeeksSpace size)
    (e : writeFile junk d path data type size = (true, d')) :
    (∃ i s', (dirTree d (diskTable d) r).walk r (strSplit path slash) = some i ∧
      (diskTable d i).IsFile ∧
      editFile ⟨d, loadFileTable (junk.sub 1) d⟩ i data size = (true, s') ∧ d' = s'.drive) ∨
    ∃ i q start, strSplit path slash = strSplit (splitPath path).1 slash ++ [(splitPath path).2] ∧
      Component (splitPath path).2 ∧
      (dirTree d (diskTable d) r).walk r (strSplit path slash) = none ∧
      (dirTree d (diskTable d) r).walk r (strSplit (splitPath path).1 slash) = some q ∧
      Added d d' (diskTable d') q i ⟨magic, type.code, start, UInt32.ofNat size⟩ (splitPath path).2 ∧
      (size ≤ 255 * 512 → ∀ k < size, content d' (diskTable d' i) k = data k) := by
  have ht : ∀ j < 640, loadFileTable (junk.sub 1) d j = diskTable d j := fun j hj =>
    h.loadFileTable_eq _ hj
  obtain ⟨hv, ⟨-, i, s', hi, hf, he, rfl⟩ | ⟨hn, start, i, q, s', hspace, hslot, hq, he, rfl⟩⟩ :=
    writeFile_true e
  · rw [h.resolve_eq _ _ (validPath_head hv) (validPath_components hv).1] at hi
    have hlt := (h.live_of_path (h.tree.walk_root.1 hi)).1
    rw [ht i hlt] at hf
    exact .inl ⟨i, s', hi, hf, he, rfl⟩
  · have hw : (dirTree d (diskTable d) r).walk r (strSplit path slash) = none := by
      rw [h.fileExists_iff _ hv] at hn
      exact Option.not_isSome_iff_eq_none.1 (Bool.eq_false_iff.1 hn)
    have hne : path ≠ [slash] := by
      rintro rfl
      simp [strSplit_slash, Tree.walk] at hw
    obtain ⟨cs, name, hsplit, -, rfl, rfl, hname⟩ := validPath_split hv hne
    obtain ⟨hi, hl⟩ := findFileEntrySlot_spec hslot
    obtain ⟨hhead, hcomp⟩ := validPath_parent hv
    rw [h.resolve_placed ht hslot hty _ _ hhead hcomp] at hq
    have hlq := h.live_of_path (h.tree.walk_root.1 hq)
    obtain ⟨hadded, hbytes⟩ := h.added data ht hspace hs hi hl hlq hname.zero_notMem he
    refine .inr ⟨i, q, start, hsplit, hname, hw, hq, hadded, fun hle k hk => ?_⟩
    rw [hadded.entry]
    exact hbytes hle k hk

/-- **A successful write**, of a new file or over an old one. -/
theorem DiskSound.writeFile (h : DiskSound d r) {junk : Junk} (hc : ∀ c ∈ strSplit path slash, c.length < 60)
    (hp : ∀ q, (dirTree d (diskTable d) r).walk r (strSplit (splitPath path).1 slash) = some q →
      IsFolder (diskTable d) q)
    (hs : size ≤ 255 * 512) (e : writeFile junk d path data .file size = (true, d')) :
    ∃ i, Written d d' r i (strSplit path slash) data size := by
  have hok := h.treeOk
  have ht : ∀ j < 640, loadFileTable (junk.sub 1) d j = diskTable d j := fun j hj =>
    hok.loadFileTable_eq _ hj
  rcases hok.writeFile_cases (.of_ne (by decide)) (.of_le (by omega)) e with
    ⟨i, s', hi, hf, he, rfl⟩ | ⟨i, q, start, hsplit, hname, hw, hq, hadded, hbytes⟩
  · have hlt := (hok.live_of_path (hok.tree.walk_root.1 hi)).1
    rw [← (hok.load ht).2] at hi
    exact ⟨i, h.overwrite ht hlt hi (ht i hlt ▸ hf) hs he⟩
  · have hlen : (splitPath path).2.length < 60 := hc _ (by rw [hsplit]; simp)
    rw [hsplit] at hw ⊢
    exact ⟨i, (hadded.created (hp q hq) hlen (hbytes hs)).written h hq hw ⟨hname.ne_nil, hlen⟩ hs⟩

namespace Written

theorem readFileMetadata_eq (h : Written d d' r i (strSplit path slash) data size) (junk : Junk)
    (hv : isValidPath path = true) (nameOut : Buf) :
    ∃ m, readFileMetadata junk d' path nameOut = some m ∧ m.size = size ∧
      m.type = FileType.file.code := by
  unfold readFileMetadata
  rw [h.sound.treeOk.lookup_eq junk hv h.here]
  exact ⟨_, rfl, h.size_eq, h.file⟩

theorem readSectors_eq {cs : List (List UInt8)} (h : Written d d' r i cs data size) (hs : size ≤ 255 * 512)
    (target : Buf) {k : ℕ} (hk : k < size) : readSectors d' (diskTable d' i).startSector.toNat target
      (diskTable d' i).size.toNat k = data k := by
  have hok := h.sound.treeOk
  have hsize := h.size_eq
  have hb := hok.extents.bounds h.lt h.live (k := k) (by omega)
  rw [← h.bytes k hk]
  exact readSectors_apply (by omega) hok.sectors_le (by omega) (by omega)

theorem readFile_eq (h : Written d d' r i (strSplit path slash) data size) (junk : Junk)
    (hv : isValidPath path = true) (hs : size ≤ 255 * 512) (dataOut : Buf) :
    ∃ b, readFile junk d' path dataOut = some b ∧ ∀ k < size, b k = data k := by
  unfold readFile
  rw [h.sound.treeOk.lookup_eq junk hv h.here]
  exact ⟨_, rfl, fun k hk => h.readSectors_eq hs dataOut hk⟩

theorem resolve_other (h : Written d d' r i (strSplit path slash) data size) (hs : DiskSound d r)
    (hv : isValidPath path = true) {q : List UInt8} (hq : isValidPath q = true) (hne : q ≠ path)
    (junk junk' : Junk) : resolve junk' d' q = resolve junk d q := by
  have hc := (validPath_components hq).1
  unfold resolve
  rw [h.sound.treeOk.resolve_eq _ _ (validPath_head hq) hc,
    hs.treeOk.resolve_eq _ _ (validPath_head hq) hc]
  exact h.elsewhere _ fun e => hne (validPath_ext hv hq e)

end Written

/-- **Write, then read.** Where the drive is in order, its root is not listed, and the parent of the
path is the root or a directory, a successful write of a file leaves the drive in order; the file is
found at the path with its size and its data; every other path resolves as before; and every other
file keeps type, size and data. -/
theorem write_then_read {junk : Junk} (h : WellFormed d) (hu : RootUnlisted d)
    (h₁ : 642 ≤ d.sectorCount) (h₂ : d.sectorCount ≤ 65535) (hv : isValidPath path = true)
    (hc : ∀ c ∈ strSplit path slash, c.length < 60)
    (hp : ∃ junk₀ q, resolve junk₀ d (splitPath path).1 = some q ∧ IsFolder (diskTable d) q)
    (hs : size ≤ 255 * 512) (e : writeFile junk d path data .file size = (true, d')) :
    WellFormed d' ∧ RootUnlisted d' ∧ ∃ i,
      (∀ junk', resolve junk' d' path = some i) ∧
      (∀ junk' nameOut, ∃ m, readFileMetadata junk' d' path nameOut = some m ∧ m.size = size ∧
        m.type = FileType.file.code) ∧
      (∀ junk' dataOut, ∃ b, readFile junk' d' path dataOut = some b ∧ ∀ k < size, b k = data k) ∧
      (∀ q, isValidPath q = true → q ≠ path →
        ∀ junk₀ junk', resolve junk' d' q = resolve junk₀ d q) ∧
      ∀ j < 640, j ≠ i → (diskTable d j).Live → (diskTable d j).IsFile →
        (diskTable d' j).Live ∧ (diskTable d' j).type = (diskTable d j).type ∧
          (diskTable d' j).size = (diskTable d j).size ∧
          ∀ k < (diskTable d j).size.toNat,
            content d' (diskTable d' j) k = content d (diskTable d j) k := by
  obtain ⟨r, hsound⟩ := h.sound hu h₁ h₂
  obtain ⟨junk₀, q, hq, hfolder⟩ := hp
  obtain ⟨hhead, hcomp⟩ := validPath_parent hv
  unfold resolve at hq
  rw [hsound.treeOk.resolve_eq _ _ hhead hcomp] at hq
  obtain ⟨i, hw⟩ := hsound.writeFile hc (fun q' hq' => by
    rw [hq, Option.some.injEq] at hq'
    exact hq' ▸ hfolder) hs e
  obtain ⟨hwf, hu'⟩ := hw.sound.wellFormed
  refine ⟨hwf, hu', i, fun junk' => ?_, fun junk' => hw.readFileMetadata_eq junk' hv,
    fun junk' => hw.readFile_eq junk' hv hs, fun q hq hne junk₀ junk' =>
      hw.resolve_other hsound hv hq hne junk₀ junk', fun j hj hji hl hf => ?_⟩
  · unfold resolve
    rw [hw.sound.treeOk.resolve_eq _ _ (validPath_head hv) (validPath_components hv).1]
    exact hw.here
  · obtain ⟨heq, hbytes⟩ := hw.others j hj hji hl hf
    rw [heq]
    exact ⟨hl, rfl, rfl, hbytes⟩

/-- Memory full of zeros. -/
def zeroJunk : Junk := fun _ _ => 0

/-- A drive with nothing but an empty root. -/
def freshDrive : Drive := saveFileTable blankDrive rootTable

theorem diskTable_freshDrive (hi : i < 640) : diskTable freshDrive i = rootTable i :=
  diskTable_save rootTable (by decide) (by decide) hi

theorem freshDrive_live (hi : i < 640) (hl : (diskTable freshDrive i).Live) : i = 0 := by
  by_contra hne
  rw [diskTable_freshDrive hi, rootTable, if_neg hne] at hl
  exact absurd hl (by decide)

theorem freshDrive_root : IsFolder (diskTable freshDrive) 0 := by
  rw [isFolder_congr (diskTable_freshDrive (by decide))]
  exact ⟨by decide, rfl, .inr rfl⟩

theorem freshDrive_not_lists : ¬ Lists freshDrive q j i := by
  rintro ⟨hq, name, e⟩
  rw [freshDrive_live hq.1 hq.2.1, diskTable_freshDrive (by decide)] at e
  cases e

theorem wellFormed_freshDrive : WellFormed freshDrive where
  root := by
    refine ⟨0, by decide, freshDrive_root.2.1, ?_, fun i hi hl _ => freshDrive_live hi hl⟩
    rw [diskTable_freshDrive (by decide)]
    rfl
  listed i hi hl hr := by
    rw [freshDrive_live hi hl, diskTable_freshDrive (by decide)] at hr
    exact absurd rfl hr
  reachable i hi hl hr := by
    rw [freshDrive_live hi hl, diskTable_freshDrive (by decide)] at hr
    exact absurd rfl hr
  live q j i hj := absurd hj freshDrive_not_lists
  distinct q hq := by
    rw [freshDrive_live hq.1 hq.2.1, diskTable_freshDrive (by decide)]
    exact List.nodup_nil
  names q hq x hx := by
    obtain ⟨j, hj⟩ := Lists.mem hq hx
    exact absurd hj freshDrive_not_lists
  extents := (driveOk_root (d := blankDrive) (by decide) (by decide)).extents

theorem rootUnlisted_freshDrive : RootUnlisted freshDrive := fun _ _ _ hj => absurd hj freshDrive_not_lists

theorem freshDrive_sound : DiskSound freshDrive 0 := by
  obtain ⟨r, hd⟩ := wellFormed_freshDrive.sound rootUnlisted_freshDrive (by decide) (by decide)
  obtain rfl := freshDrive_live hd.treeOk.root.1 hd.treeOk.root.2.1
  exact hd

theorem walk_freshDrive (c : List UInt8) (cs : List (List UInt8)) :
    (dirTree freshDrive (diskTable freshDrive) 0).walk 0 (c :: cs) = none := by
  rw [Tree.walk, TreeOk.entries_eq freshDrive_root, diskTable_freshDrive (by decide)]
  rfl

theorem exists_of_fst {α : Type*} {x : Bool × α} (h : x.1 = true) : ∃ y, x = (true, y) :=
  ⟨x.2, Prod.ext h rfl⟩

theorem written_freshDrive (hc : ∀ c ∈ strSplit path slash, c.length < 60)
    (hp : strSplit (splitPath path).1 slash = []) (hs : size ≤ 255 * 512)
    (h : writeFile zeroJunk freshDrive path data .file size = (true, d')) :
    ∃ i, Written freshDrive d' 0 i (strSplit path slash) data size := by
  refine freshDrive_sound.writeFile hc (fun q hq => ?_) hs h
  rw [hp] at hq
  cases hq
  exact freshDrive_root

theorem writeFile_freshDrive_fst :
    (writeFile zeroJunk freshDrive [47, 97] (fun _ => 7) .file 3).1 = true := by
  decide +kernel

theorem write_then_read_fresh_drive :
    ∃ d', writeFile zeroJunk freshDrive [47, 97] (fun _ => 7) .file 3 = (true, d') ∧
      WellFormed d' ∧ ∀ junk dataOut, ∃ b,
        readFile junk d' [47, 97] dataOut = some b ∧ ∀ k < 3, b k = 7 := by
  have hparent : resolve zeroJunk freshDrive (splitPath [47, 97]).1 = some 0 :=
    freshDrive_sound.treeOk.resolve_eq _ _ rfl fun c hc => absurd hc List.not_mem_nil
  obtain ⟨d', e⟩ := exists_of_fst writeFile_freshDrive_fst
  obtain ⟨hwf, -, i, -, -, hread, -⟩ := write_then_read wellFormed_freshDrive
    rootUnlisted_freshDrive (by decide) (by decide) (by decide) (by decide)
    ⟨zeroJunk, 0, hparent, freshDrive_root⟩ (by decide) e
  exact ⟨d', e, hwf, hread⟩

/-! ## A listed root -/

/-- `/` lists `d` and `x`, and `/d` lists the root as `r`. -/
def listedRootTable : FileTable := fun i =>
  if i = 0 then ⟨magic, FileType.rootDirectory.code, 641, 128⟩
  else if i = 1 then ⟨magic, FileType.directory.code, 642, 64⟩
  else if i = 2 then ⟨magic, FileType.file.code, 643, 0⟩
  else ⟨0, 0, 0, 0⟩

/-- The drive of that table, with the two directories in sectors 641 and 642. -/
def listedRoot : Drive where
  bytes k :=
    if k < 512 then 0
    else if k < 21 * 512 then encodeTable listedRootTable (k - 512)
    else if 642 * 512 ≤ k then putDirEntry (fun _ => 0) 0 0 [114] (k - 642 * 512)
    else if 641 * 512 ≤ k then
      putDirEntry (putDirEntry (fun _ => 0) 0 1 [100]) 1 2 [120] (k - 641 * 512)
    else 0
  sectorCount := 1000

theorem diskTable_listedRoot (hi : i < 640) : diskTable listedRoot i = listedRootTable i := by
  rw [← decodeTable_encodeTable listedRootTable i]
  refine decodeTable_congr fun k hk => ?_
  unfold listedRoot
  dsimp only
  rw [if_neg (by omega), if_pos (by omega), Nat.add_sub_cancel_left]

theorem listedRoot_live (hi : i < 640) (hl : (diskTable listedRoot i).Live) :
    i = 0 ∨ i = 1 ∨ i = 2 := by
  by_contra hne
  rw [not_or, not_or] at hne
  rw [diskTable_listedRoot hi, listedRootTable, if_neg hne.1, if_neg hne.2.1, if_neg hne.2.2] at hl
  exact absurd hl (by decide)

theorem listedRoot_folder (hq : IsFolder (diskTable listedRoot) q) : q = 0 ∨ q = 1 := by
  obtain rfl | rfl | rfl := listedRoot_live hq.1 hq.2.1
  · exact .inl rfl
  · exact .inr rfl
  · exact absurd hq (by decide +kernel)

theorem dirEntries_listedRoot_zero :
    dirEntries listedRoot (diskTable listedRoot 0) = [([100], 1), ([120], 2)] := by
  decide +kernel

theorem dirEntries_listedRoot_one :
    dirEntries listedRoot (diskTable listedRoot 1) = [([114], 0)] := by
  decide +kernel

theorem listedRoot_lists (h : Lists listedRoot q j i) :
    q = 0 ∧ j = 0 ∧ i = 1 ∨ q = 0 ∧ j = 1 ∧ i = 2 ∨ q = 1 ∧ j = 0 ∧ i = 0 := by
  obtain ⟨hq, name, e⟩ := h
  obtain rfl | rfl := listedRoot_folder hq
  · rw [dirEntries_listedRoot_zero] at e
    match j, e with
    | 0, rfl => exact .inl ⟨rfl, rfl, rfl⟩
    | 1, rfl => exact .inr (.inl ⟨rfl, rfl, rfl⟩)
  · rw [dirEntries_listedRoot_one] at e
    match j, e with
    | 0, rfl => exact .inr (.inr ⟨rfl, rfl, rfl⟩)

theorem listedRoot_lists_one : Lists listedRoot 0 0 1 := by
  refine ⟨by decide +kernel, [100], ?_⟩
  rw [dirEntries_listedRoot_zero]
  rfl

theorem listedRoot_lists_two : Lists listedRoot 0 1 2 := by
  refine ⟨by decide +kernel, [120], ?_⟩
  rw [dirEntries_listedRoot_zero]
  rfl

theorem listedRoot_reachable : Reachable listedRoot 0 :=
  .root (by decide) (by decide +kernel) (by decide +kernel)

theorem extentsOk_listedRoot : ExtentsOk 1000 listedRootTable := by
  have hocc : ∀ i, Occupied listedRootTable i → i = 0 ∨ i = 1 := by
    intro i hi
    obtain ⟨-, -, hi⟩ := hi
    unfold listedRootTable at hi
    split_ifs at hi with h₀ h₁ h₂
    · exact .inl h₀
    · exact .inr h₁
    · exact absurd rfl hi
    · exact absurd rfl hi
  refine ⟨fun i hi => ?_, fun i hi => ?_, fun i j hi hj hij => ?_⟩
  · obtain rfl | rfl := hocc i hi
    · decide
    · decide
  · obtain rfl | rfl := hocc i hi
    · decide
    · decide
  · obtain rfl | rfl := hocc i hi
    · obtain rfl | rfl := hocc j hj
      · exact absurd rfl hij
      · decide
    · obtain rfl | rfl := hocc j hj
      · decide
      · exact absurd rfl hij

theorem wellFormed_listedRoot : WellFormed listedRoot where
  root := by
    refine ⟨0, by decide, by decide +kernel, by decide +kernel, fun i hi hl hr => ?_⟩
    obtain rfl | rfl | rfl := listedRoot_live hi hl
    · rfl
    · exact absurd hr (by decide +kernel)
    · exact absurd hr (by decide +kernel)
  listed i hi hl hr := by
    obtain rfl | rfl | rfl := listedRoot_live hi hl
    · exact absurd hr (by decide +kernel)
    · refine ⟨0, 0, listedRoot_lists_one, fun q' j' h => ?_⟩
      have := listedRoot_lists h
      omega
    · refine ⟨0, 1, listedRoot_lists_two, fun q' j' h => ?_⟩
      have := listedRoot_lists h
      omega
  reachable i hi hl hr := by
    obtain rfl | rfl | rfl := listedRoot_live hi hl
    · exact listedRoot_reachable
    · exact .step listedRoot_reachable listedRoot_lists_one
    · exact .step listedRoot_reachable listedRoot_lists_two
  live q j i h := by
    obtain ⟨-, -, rfl⟩ | ⟨-, -, rfl⟩ | ⟨-, -, rfl⟩ := listedRoot_lists h
    · exact ⟨by decide, by decide +kernel⟩
    · exact ⟨by decide, by decide +kernel⟩
    · exact ⟨by decide, by decide +kernel⟩
  distinct q hq := by
    obtain rfl | rfl := listedRoot_folder hq
    · rw [dirEntries_listedRoot_zero]
      decide
    · rw [dirEntries_listedRoot_one]
      decide
  names q hq := by
    obtain rfl | rfl := listedRoot_folder hq
    · rw [dirEntries_listedRoot_zero]
      decide
    · rw [dirEntries_listedRoot_one]
      decide
  extents := extentsOk_listedRoot.congr fun _ => diskTable_listedRoot

/-- **A write below a listed root.** The parent of `/d/r/x` resolves to the root and the path itself
does not, since `r` is no directory on the way. The new entry goes to the root, which then lists two
entries `x`; the write succeeds, and the path still does not resolve. -/
theorem write_through_listed_root :
    WellFormed listedRoot ∧ 642 ≤ listedRoot.sectorCount ∧ listedRoot.sectorCount ≤ 65535 ∧
      isValidPath [47, 100, 47, 114, 47, 120] = true ∧
      (∀ c ∈ strSplit [47, 100, 47, 114, 47, 120] slash, c.length < 60) ∧
      resolve zeroJunk listedRoot (splitPath [47, 100, 47, 114, 47, 120]).1 = some 0 ∧
      IsFolder (diskTable listedRoot) 0 ∧
      resolve zeroJunk listedRoot [47, 100, 47, 114, 47, 120] = none ∧
      ∃ d', writeFile zeroJunk listedRoot [47, 100, 47, 114, 47, 120] (fun _ => 7) .file 3 =
          (true, d') ∧
        ∀ nameOut, readFileMetadata zeroJunk d' [47, 100, 47, 114, 47, 120] nameOut = none := by
  refine ⟨wellFormed_listedRoot, by decide, by decide, by decide, by decide, by decide +kernel,
    by decide +kernel, by decide +kernel, ?_⟩
  -- one computation for both: the write is what takes the time
  have hwrite : (writeFile zeroJunk listedRoot [47, 100, 47, 114, 47, 120] (fun _ => 7)
      .file 3).1 = true ∧
      lookup zeroJunk (writeFile zeroJunk listedRoot [47, 100, 47, 114, 47, 120]
        (fun _ => 7) .file 3).2 [47, 100, 47, 114, 47, 120] = none := by
    decide +kernel
  obtain ⟨⟨b, d'⟩, e⟩ : ∃ x, writeFile zeroJunk listedRoot [47, 100, 47, 114, 47, 120]
    (fun _ => 7) .file 3 = x := ⟨_, rfl⟩
  rw [e] at hwrite
  obtain ⟨rfl, hnone⟩ := hwrite
  refine ⟨d', e, fun nameOut => ?_⟩
  rw [readFileMetadata, hnone]
  rfl

end EitanOS
