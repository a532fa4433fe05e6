import EitanOS.Disk.Extents
import EitanOS.Disk.Paths
import EitanOS.Lib.NameTree
import Mathlib.Data.List.Find

/-!
# The directory tree on a drive

* `dirEntries`: what a directory lists, as names and indices. `dirTree`: the tree of names they form.
* `TreeOk d t r`: the folders of table `t` list live entries under proper names and form a tree below
  entry `r`, and the extents of `t` are in order.
* `ReadsAs`, **`resolveLoop_cons`**: one component of `resolve_path`, by what the directory is read as.
* **`TreeOk.resolvePath_eq`**: `resolve_path` walks down that tree; **`TreeOk.resolvePath_sameBut`**:
  also where the table is not in order, but only in an entry that is not on the way;
  **`TreeOk.resolveLoop_append`**: also on another drive, as far as the folders on the way are the same.
* `TreeOk.congr`: the tree depends on the folders only.
-/

namespace EitanOS

open Bytes Names

/-! ## What directories list -/

/-- The bytes on disk from the start of an entry on. -/
def content (d : Drive) (e : FileEntry) : Buf := fun k => d.bytes (e.startSector.toNat * 512 + k)

/-- The name of entry `j` of a directory: the bytes before the first zero. -/
def nameAt (b : Buf) (j : ℕ) : List UInt8 := cstr (dirName b j) 60

/-- The entries of a directory. -/
def dirEntries (d : Drive) (e : FileEntry) : List (List UInt8 × ℕ) :=
  (List.range (e.size.toNat / 64)).map fun j => (nameAt (content d e) j, dirIndex (content d e) j)

/-- Entry `q` of the table is the root or a directory. -/
def IsFolder (t : FileTable) (q : ℕ) : Prop :=
  q < 640 ∧ (t q).Live ∧ ((t q).IsDir ∨ (t q).IsRoot)

instance (t : FileTable) (q : ℕ) : Decidable (IsFolder t q) := by
  unfold IsFolder
  infer_instance

/-- The tree below entry `r`. -/
def dirTree (d : Drive) (t : FileTable) (r : ℕ) : Tree (List UInt8) ℕ where
  root := r
  isDir q := q < 640 ∧ (t q).Live ∧ (t q).IsDir
  entries q := if IsFolder t q then dirEntries d (t q) else []

variable {d d' : Drive} {t t' : FileTable} {r q i : ℕ} {b b' : Buf} {j : ℕ}

theorem isDir_dirTree_congr
    (h : j < 640 → ((t' j).Live ↔ (t j).Live) ∧ (t' j).type = (t j).type) :
    (dirTree d' t' r).isDir j = (dirTree d t r).isDir j := by
  show decide _ = decide _
  rw [decide_eq_decide]
  refine and_congr_right fun hlt => ?_
  obtain ⟨h₁, h₂⟩ := h hlt
  rw [h₁, FileEntry.IsDir, h₂]

theorem nameAt_congr {j' : ℕ} (h : ∀ k < 60, b' (64 * j' + k) = b (64 * j + k)) :
    nameAt b' j' = nameAt b j := by
  unfold nameAt cstr
  congr 1
  exact List.map_congr_left fun k hk => h k (List.mem_range.1 hk)

theorem dirIndex_congr {j' : ℕ} (h : ∀ k < 64, b' (64 * j' + k) = b (64 * j + k)) :
    dirIndex b' j' = dirIndex b j := by
  unfold dirIndex
  rw [le32_congr fun k hk => ?_]
  rw [Nat.add_assoc, Nat.add_assoc]
  exact h (60 + k) (by omega)

theorem entry_congr {n : ℕ} (h : ∀ k < n, b' k = b k) (hj : j < n / 64) :
    nameAt b' j = nameAt b j ∧ dirIndex b' j = dirIndex b j :=
  ⟨nameAt_congr fun k hk => h _ (by omega), dirIndex_congr fun k hk => h _ (by omega)⟩

theorem dirEntries_congr {e : FileEntry}
    (h : ∀ k < e.size.toNat, content d' e k = content d e k) : dirEntries d' e = dirEntries d e := by
  refine List.map_congr_left fun j hj => ?_
  obtain ⟨h₁, h₂⟩ := entry_congr h (List.mem_range.1 hj)
  rw [h₁, h₂]

theorem folder_dirTree (hr : r < 640 ∧ (t r).Live ∧ (t r).IsRoot)
    (hu : ∀ i < 640, (t i).Live → (t i).IsRoot → i = r) :
    (dirTree d t r).Folder q ↔ IsFolder t q := by
  constructor
  · rintro (rfl | hq)
    · exact ⟨hr.1, hr.2.1, .inr hr.2.2⟩
    · obtain ⟨h₁, h₂, h₃⟩ := of_decide_eq_true hq
      exact ⟨h₁, h₂, .inl h₃⟩
  · rintro ⟨h₁, h₂, h₃ | h₃⟩
    · exact .inr (decide_eq_true ⟨h₁, h₂, h₃⟩)
    · exact .inl (hu q h₁ h₂ h₃)

/-! ## Resolving paths -/

/-- The directory of an entry is read as these names and indices. -/
def ReadsAs (d : Drive) (e : FileEntry) (l : List (List UInt8 × ℕ)) : Prop :=
  ∀ target, (List.range (e.size.toNat / 64)).map (fun j =>
    (nameAt (readSectors d e.startSector.toNat target e.size.toNat) j,
      dirIndex (readSectors d e.startSector.toNat target e.size.toNat) j)) = l

theorem readsAs_dirEntries {e : FileEntry}
    (h : ∀ target, ∀ k < e.size.toNat,
      readSectors d e.startSector.toNat target e.size.toNat k = content d e k) :
    ReadsAs d e (dirEntries d e) := by
  intro target
  refine List.map_congr_left fun j hj => ?_
  obtain ⟨h₁, h₂⟩ := entry_congr (h target) (List.mem_range.1 hj)
  rw [h₁, h₂]

/-- **One component of a path**: the first entry of that name that is in use, and a directory unless it
is the last one. -/
theorem resolveLoop_cons {l : List (List UInt8 × ℕ)} (hl : ReadsAs d (t q) l)
    (hn : ∀ x ∈ l, x.1.length < 60) {c : List UInt8} (hc : Component c) (junk : Junk)
    (cs : List (List UInt8)) : resolveLoop d t junk q (c :: cs) =
      (l.find? fun x => x.1 = c ∧ (t x.2).Live ∧ ((t x.2).IsDir ∨ cs = [])).bind fun x =>
        resolveLoop d t (junk.sub 0) x.2 cs := by
  have hread := hl junk.buf
  rw [resolveLoop]
  dsimp only
  by_cases h₀ : (t q).size = 0
  · rw [if_pos h₀, ← hread, h₀]
    rfl
  · rw [if_neg h₀]
    generalize readSectors d (t q).startSector.toNat junk.buf (t q).size.toNat = entries at hread ⊢
    have htest : ∀ j ∈ List.range ((t q).size.toNat / 64),
        (strcmp (dirName entries j) (toBuf c) && decide (t (dirIndex entries j)).Live &&
          (decide (t (dirIndex entries j)).IsDir || cs.isEmpty)) =
        decide (nameAt entries j = c ∧ (t (dirIndex entries j)).Live ∧
          ((t (dirIndex entries j)).IsDir ∨ cs = [])) := by
      intro j hj
      have hlen : (nameAt entries j).length < 60 :=
        hn (nameAt entries j, dirIndex entries j) (hread ▸ List.mem_map_of_mem hj)
      have hle := hc.length_le
      have hcmp := strcmp_cstr (n := 60) hlen (by omega) hc.zero_notMem (by omega)
      rw [Bool.eq_iff_iff, Bool.and_eq_true, Bool.and_eq_true, hcmp, Bool.or_eq_true, decide_eq_true_eq,
        decide_eq_true_eq, decide_eq_true_eq, List.isEmpty_iff, and_assoc]
      rfl
    rw [← hread, List.find?_map, List.find?_congr htest]
    simp only [Function.comp_def]
    cases (List.range ((t q).size.toNat / 64)).find? fun j => decide (nameAt entries j = c ∧
      (t (dirIndex entries j)).Live ∧ ((t (dirIndex entries j)).IsDir ∨ cs = [])) with
    | none => rfl
    | some j => rfl

/-- The first record, if it is one for the component. -/
theorem resolveLoop_head {c : List UInt8} (hc : Component c) (hlen : c.length < 60) {x : ℕ}
    (hs : 64 ≤ (t q).size.toNat)
    (hread : ∀ target, nameAt (readSectors d (t q).startSector.toNat target (t q).size.toNat) 0 = c ∧
      dirIndex (readSectors d (t q).startSector.toNat target (t q).size.toNat) 0 = x)
    (hl : (t x).Live) (hd : (t x).IsDir) (junk : Junk) (cs : List (List UInt8)) :
    resolveLoop d t junk q (c :: cs) = resolveLoop d t (junk.sub 0) x cs := by
  have hsize : (t q).size ≠ 0 := by
    intro e
    rw [e] at hs
    exact absurd hs (by decide)
  obtain ⟨m, hm⟩ : ∃ m, (t q).size.toNat / 64 = m + 1 := ⟨(t q).size.toNat / 64 - 1, by omega⟩
  obtain ⟨hname, hindex⟩ := hread junk.buf
  rw [resolveLoop]
  dsimp only
  rw [if_neg hsize, hm, List.range_succ_eq_map]
  generalize readSectors d (t q).startSector.toNat junk.buf (t q).size.toNat = entries at hname hindex ⊢
  have hcmp : strcmp (dirName entries 0) (toBuf c) = true := by
    have hle := hc.length_le
    exact (strcmp_cstr (n := 60) (by rw [← nameAt, hname]; exact hlen) (by omega) hc.zero_notMem
      (by omega)).2 hname
  rw [List.find?_cons_of_pos]
  · dsimp only
    rw [hindex]
  · rw [hcmp, hindex, decide_eq_true hl, decide_eq_true hd]
    rfl

/-- Table `t'` is table `t` but for entry `i`, which is no folder of `t` and no root in front of the one
of `t`. -/
structure SameBut (t t' : FileTable) (i : ℕ) : Prop where
  others : ∀ j < 640, j ≠ i → t' j = t j
  folder : ¬ IsFolder t i
  root : i < 640 → (t' i).Live → (t' i).IsRoot → ∃ j < i, (t j).Live ∧ (t j).IsRoot
  live : (t i).Live → (t' i).Live

/-- What the operations rely on: the folders form a tree of proper names below entry `r`. -/
structure TreeOk (d : Drive) (t : FileTable) (r : ℕ) : Prop where
  le_sectors : 642 ≤ d.sectorCount
  sectors_le : d.sectorCount ≤ 65535
  root : r < 640 ∧ (t r).Live ∧ (t r).IsRoot
  root_unique : ∀ i < 640, (t i).Live → (t i).IsRoot → i = r
  live : ∀ q, IsFolder t q → ∀ x ∈ dirEntries d (t q), x.2 < 640 ∧ (t x.2).Live
  names : ∀ q, IsFolder t q → ∀ x ∈ dirEntries d (t q), x.1 ≠ [] ∧ x.1.length < 60
  tree : (dirTree d t r).Ok
  extents : ExtentsOk d.sectorCount t

namespace TreeOk

theorem isFolder_root (h : TreeOk d t r) : IsFolder t r := ⟨h.root.1, h.root.2.1, .inr h.root.2.2⟩

theorem folder_iff (h : TreeOk d t r) : (dirTree d t r).Folder q ↔ IsFolder t q :=
  folder_dirTree h.root h.root_unique

theorem entries_eq (hq : IsFolder t q) : (dirTree d t r).entries q = dirEntries d (t q) := if_pos hq

theorem count_le (h : TreeOk d t r) (hq : IsFolder t q) : (t q).size.toNat / 64 ≤ 640 := by
  have hn := h.tree.nodes q (h.folder_iff.2 hq)
  rw [entries_eq hq] at hn
  have hs : (dirEntries d (t q)).map Prod.snd ⊆ List.range 640 := by
    intro i hi
    obtain ⟨x, hx, rfl⟩ := List.mem_map.1 hi
    exact List.mem_range.2 (h.live q hq x hx).1
  simpa [dirEntries] using (hn.subperm hs).length_le

theorem readSectors_kept (h : TreeOk d t r) (hq : IsFolder t q) (hsc : d'.sectorCount = d.sectorCount)
    {target : Buf} {k : ℕ} (hk : k < (t q).size.toNat) :
    readSectors d' (t q).startSector.toNat target (t q).size.toNat k = content d' (t q) k := by
  have hc := h.count_le hq
  have h₁ := h.le_sectors
  have h₂ := h.sectors_le
  have hs : (t q).size ≠ 0 := by
    intro e
    rw [e] at hk
    exact absurd hk (Nat.not_lt_zero _)
  have hx := h.extents.stop q ⟨hq.1, hq.2.1, hs⟩
  unfold FileEntry.stop FileEntry.sectors at hx
  exact readSectors_apply (by omega) (hsc ▸ h₂) (by omega) hk

theorem readSectors_folder (h : TreeOk d t r) (hq : IsFolder t q) {target : Buf} {k : ℕ}
    (hk : k < (t q).size.toNat) :
    readSectors d (t q).startSector.toNat target (t q).size.toNat k = content d (t q) k :=
  h.readSectors_kept hq rfl hk

theorem readsAs (h : TreeOk d t r) (hq : IsFolder t q) : ReadsAs d (t q) (dirEntries d (t q)) :=
  readsAs_dirEntries fun _ _ hk => h.readSectors_folder hq hk

theorem readsAs_kept (h : TreeOk d t r) (hq : IsFolder t q) (hsc : d'.sectorCount = d.sectorCount)
    (hc : ∀ k < (t q).size.toNat, content d' (t q) k = content d (t q) k) :
    ReadsAs d' (t q) (dirEntries d (t q)) := by
  rw [← dirEntries_congr hc]
  exact readsAs_dirEntries fun _ _ hk => h.readSectors_kept hq hsc hk

/-- **The loop of `resolve_path` walks down the tree**, also where the table differs in an entry that
it does not go through. -/
theorem resolveLoop_eq (h : TreeOk d t r) (hs : SameBut t t' i) {cs cs₀ : List (List UInt8)}
    (hc : ∀ c ∈ cs, Component c) (junk : Junk) (hp : (dirTree d t r).Path cs₀ q)
    (hq : cs ≠ [] → IsFolder t q)
    (hi : ∀ csi, (dirTree d t r).Path csi i → csi <+: cs₀ ++ cs → csi = cs₀ ++ cs) :
    resolveLoop d t' junk q cs = (dirTree d t r).walk q cs := by
  induction cs generalizing q junk cs₀ with
  | nil => rfl
  | cons c cs ih =>
    have hf := hq (List.cons_ne_nil _ _)
    have htq : t' q = t q := hs.others q hf.1 fun e => hs.folder (e ▸ hf)
    have hpath : ∀ x ∈ dirEntries d (t q), x.1 = c → (dirTree d t r).Path (cs₀ ++ [c]) x.2 := by
      rintro ⟨_, x⟩ hx rfl
      refine .snoc hp (h.folder_iff.2 hf) ?_
      rwa [entries_eq hf]
    have htest : ∀ x ∈ dirEntries d (t q),
        decide (x.1 = c ∧ (t' x.2).Live ∧ ((t' x.2).IsDir ∨ cs = [])) =
          decide (x.1 = c ∧ ((dirTree d t r).isDir x.2 ∨ cs = [])) := by
      intro x hx
      obtain ⟨h₁, h₂⟩ := h.live q hf x hx
      rw [decide_eq_decide]
      refine and_congr_right fun hname => ?_
      by_cases hxi : x.2 = i
      · -- the one entry that may differ is in use, and the last on the path
        have hlast : cs = [] := by
          have e := hi _ (hxi ▸ hpath x hx hname) ⟨cs, by simp⟩
          simpa using e
        exact iff_of_true ⟨hxi ▸ hs.live (hxi ▸ h₂), .inr hlast⟩ (.inr hlast)
      · rw [hs.others _ h₁ hxi, and_iff_right h₂]
        refine or_congr_left ⟨fun hd => decide_eq_true ⟨h₁, h₂, hd⟩, fun hd => (of_decide_eq_true hd).2.2⟩
    rw [resolveLoop_cons (by rw [htq]; exact h.readsAs hf) (fun x hx => (h.names q hf x hx).2)
      (hc c List.mem_cons_self), List.find?_congr htest, Tree.walk, entries_eq hf]
    cases e : (dirEntries d (t q)).find? fun x =>
      decide (x.1 = c ∧ ((dirTree d t r).isDir x.2 ∨ cs = [])) with
    | none => rfl
    | some x =>
      have hd := List.find?_some e
      rw [decide_eq_true_eq] at hd
      refine ih (fun c' hc' => hc c' (List.mem_cons_of_mem _ hc')) _
        (hpath x (List.mem_of_find?_eq_some e) hd.1) (fun hn => ?_) fun csi hcsi hpre => ?_
      · exact h.folder_iff.1 (.inr (hd.2.resolve_right hn))
      · rw [← List.append_cons] at hpre ⊢
        exact hi csi hcsi hpre

/-- **On another drive, `resolve_path` gets to a folder**, if the folders in front of it are the same. -/
theorem resolveLoop_append (h : TreeOk d t r) {cs : List (List UInt8)}
    (hq : (dirTree d t r).Path cs q) (hf : IsFolder t q) (hc : ∀ c ∈ cs, Component c)
    (hway : ∀ csp p, (dirTree d t r).Path csp p → IsFolder t p → csp <+: cs → csp ≠ cs →
      ReadsAs d' (t' p) (dirEntries d (t p)))
    (hlive : ∀ p < 640, (t p).Live → (t' p).Live ∧ (t' p).type = (t p).type) (junk : Junk)
    (rest : List (List UInt8)) :
    ∃ junk', resolveLoop d' t' junk r (cs ++ rest) = resolveLoop d' t' junk' q rest := by
  induction hq generalizing rest with
  | root => exact ⟨junk, rfl⟩
  | @snoc cs p c q hp hfold hm ih =>
    have hfp := h.folder_iff.1 hfold
    obtain ⟨junk', e⟩ := ih hfp (fun c' hc' => hc c' (List.mem_append_left _ hc'))
      (fun csp p' hp' hf' hpre hne => hway csp p' hp' hf' (hpre.trans (List.prefix_append _ _)) fun e => by
        have hle := hpre.length_le
        rw [e, List.length_append, List.length_singleton] at hle
        omega) (c :: rest)
    refine ⟨junk'.sub 0, ?_⟩
    have hx := hm
    rw [entries_eq hfp] at hx
    -- the folder is found under its name, and is a directory since it is not the root
    have hdir : (t q).IsDir := hf.2.2.resolve_right fun hroot =>
      h.tree.root p (c, q) hfold hm (h.root_unique q hf.1 hf.2.1 hroot)
    obtain ⟨hl, htype⟩ := hlive q hf.1 hf.2.1
    have htest : decide (c = c ∧ (t' q).Live ∧ ((t' q).IsDir ∨ rest = [])) = true :=
      decide_eq_true ⟨rfl, hl, .inl (htype.trans hdir)⟩
    have hfind : (dirEntries d (t p)).find? (fun x =>
        decide (x.1 = c ∧ (t' x.2).Live ∧ ((t' x.2).IsDir ∨ rest = []))) = some (c, q) := by
      cases e : (dirEntries d (t p)).find? fun x =>
          decide (x.1 = c ∧ (t' x.2).Live ∧ ((t' x.2).IsDir ∨ rest = [])) with
      | none => exact absurd htest (List.find?_eq_none.1 e _ hx)
      | some y =>
        have hy := List.mem_of_find?_eq_some e
        have htrue := List.find?_some e
        rw [decide_eq_true_eq] at htrue
        rw [← entries_eq (r := r) hfp] at hy
        rw [h.tree.entry_eq_of_name hfold hy hm htrue.1]
    rw [List.append_assoc, List.singleton_append, e, resolveLoop_cons
      (hway cs p hp hfp (List.prefix_append _ _) (by simp)) (fun x hx => (h.names p hfp x hx).2)
      (hc c (by simp)), hfind]
    rfl

theorem findRoot_of_roots (h : TreeOk d t r) (hri : r ≠ i)
    (hs : ∀ j < 640, j ≠ i → ((t' j).Live ∧ (t' j).IsRoot ↔ (t j).Live ∧ (t j).IsRoot))
    (hi : i < 640 → (t' i).Live → (t' i).IsRoot → ∃ j < i, (t j).Live ∧ (t j).IsRoot) :
    findRoot t' = some r := by
  rw [findRoot, List.find?_range_eq_some]
  refine ⟨?_, List.mem_range.2 h.root.1, fun j hj => ?_⟩
  · exact decide_eq_true ((hs r h.root.1 hri).2 h.root.2)
  · have hlt := hj.trans h.root.1
    rw [Bool.not_eq_true', decide_eq_false_iff_not]
    intro hroot
    by_cases hji : j = i
    · subst hji
      obtain ⟨k, hk, hlk, hrk⟩ := hi hlt hroot.1 hroot.2
      rw [h.root_unique k (hk.trans hlt) hlk hrk] at hk
      omega
    · obtain ⟨hl, hr⟩ := (hs j hlt hji).1 hroot
      exact hj.ne (h.root_unique j hlt hl hr)

theorem findRoot_eq (h : TreeOk d t r) (hs : SameBut t t' i) : findRoot t' = some r := by
  have hri : r ≠ i := fun e => hs.folder (e ▸ h.isFolder_root)
  refine h.findRoot_of_roots hri (fun j hj hji => ?_) hs.root
  rw [hs.others j hj hji]

/-- **`resolve_path` walks down the tree** along the components of the path, also where the table
differs in an entry that is not on the way. -/
theorem resolvePath_sameBut (h : TreeOk d t r) (hs : SameBut t t' i) {path : List UInt8}
    (hhead : path.head? = some slash) (hc : ∀ c ∈ strSplit path slash, Component c)
    (hi : ∀ csi, (dirTree d t r).Path csi i → csi <+: strSplit path slash →
      csi = strSplit path slash) (junk : Junk) :
    resolvePath junk d t' path = (dirTree d t r).walk r (strSplit path slash) := by
  rw [resolvePath, if_pos hhead, h.findRoot_eq hs]
  exact h.resolveLoop_eq hs hc junk .root (fun _ => h.isFolder_root) hi

theorem live_of_path (h : TreeOk d t r) {cs : List (List UInt8)} (hp : (dirTree d t r).Path cs q) :
    q < 640 ∧ (t q).Live := by
  cases hp with
  | root => exact ⟨h.root.1, h.root.2.1⟩
  | snoc _ hf hm =>
    rw [h.folder_iff] at hf
    rw [entries_eq hf] at hm
    exact h.live _ hf _ hm

theorem resolvePath_eq (h : TreeOk d t r) {path : List UInt8} (hhead : path.head? = some slash)
    (hc : ∀ c ∈ strSplit path slash, Component c) (junk : Junk) :
    resolvePath junk d t path = (dirTree d t r).walk r (strSplit path slash) := by
  -- no path leads behind the table
  have hlt : ¬ IsFolder t 640 := fun hf => absurd hf.1 (lt_irrefl _)
  refine h.resolvePath_sameBut ⟨fun _ _ _ => rfl, hlt, fun h => absurd h (lt_irrefl _), id⟩ hhead hc
    (fun csi hp _ => ?_) junk
  exact absurd (h.live_of_path hp).1 (lt_irrefl _)

end TreeOk

/-! ## What the tree depends on -/

/-- The folders of two drives are the same, with the same bytes. -/
def SameFolders (d : Drive) (t : FileTable) (d' : Drive) (t' : FileTable) : Prop :=
  ∀ q, IsFolder t q ∨ IsFolder t' q →
    t' q = t q ∧ ∀ k < (t q).size.toNat, content d' (t q) k = content d (t q) k

theorem isFolder_congr (h : t' q = t q) : IsFolder t' q ↔ IsFolder t q := by
  unfold IsFolder
  rw [h]

namespace SameFolders

theorem isFolder (h : SameFolders d t d' t') : IsFolder t' q ↔ IsFolder t q :=
  ⟨fun hq => (isFolder_congr (h q (.inr hq)).1).1 hq, fun hq => (isFolder_congr (h q (.inl hq)).1).2 hq⟩

theorem dirEntries (h : SameFolders d t d' t') (hq : IsFolder t q) :
    dirEntries d' (t' q) = dirEntries d (t q) := by
  obtain ⟨e, hk⟩ := h q (.inl hq)
  rw [e]
  exact dirEntries_congr hk

theorem dirTree (h : SameFolders d t d' t') : dirTree d' t' r = dirTree d t r := by
  unfold EitanOS.dirTree
  congr 1
  · funext q
    rw [decide_eq_decide]
    constructor
    · rintro ⟨h₁, h₂, h₃⟩
      have e := (h q (.inr ⟨h₁, h₂, .inl h₃⟩)).1
      rw [e] at h₂ h₃
      exact ⟨h₁, h₂, h₃⟩
    · rintro ⟨h₁, h₂, h₃⟩
      have e := (h q (.inl ⟨h₁, h₂, .inl h₃⟩)).1
      rw [← e] at h₂ h₃
      exact ⟨h₁, h₂, h₃⟩
  · funext q
    by_cases hq : IsFolder t q
    · rw [if_pos hq, if_pos (h.isFolder.2 hq), h.dirEntries hq]
    · rw [if_neg hq, if_neg fun hq' => hq (h.isFolder.1 hq')]

end SameFolders

/-- **Where folders stay as they are, so does the tree.** -/
theorem TreeOk.congr (h : TreeOk d t r) (hs : SameFolders d t d' t')
    (hsc : d'.sectorCount = d.sectorCount) (hl : ∀ i < 640, (t i).Live → (t' i).Live)
    (hx : ExtentsOk d.sectorCount t') : TreeOk d' t' r where
  le_sectors := hsc ▸ h.le_sectors
  sectors_le := hsc ▸ h.sectors_le
  root := by
    rw [(hs r (.inl h.isFolder_root)).1]
    exact h.root
  root_unique i hi h₁ h₂ := by
    have e := (hs i (.inr ⟨hi, h₁, .inr h₂⟩)).1
    rw [e] at h₁ h₂
    exact h.root_unique i hi h₁ h₂
  live q hq x hx := by
    rw [hs.isFolder] at hq
    rw [hs.dirEntries hq] at hx
    obtain ⟨h₁, h₂⟩ := h.live q hq x hx
    exact ⟨h₁, hl _ h₁ h₂⟩
  names q hq x hx := by
    rw [hs.isFolder] at hq
    rw [hs.dirEntries hq] at hx
    exact h.names q hq x hx
  tree := by
    rw [hs.dirTree]
    exact h.tree
  extents := hsc ▸ hx

end EitanOS
