import EitanOS.Disk.Files
import EitanOS.Lib.Gaps

/-!
# Extents and free space

* `ExtentsOk sc t`: the extents of the entries in use that are not empty are disjoint and lie in
  `[641, sc - 1)`.
* **`findSpaceForFile_spec`**: `find_space_for_file` finds sectors of that range that no extent
  meets.
* `SeeksSpace`: sizes whose number of sectors does not wrap around to 0.
* **`ExtentsOk.place`**, `ExtentsOk.clear`: placing an entry there, or freeing one.
-/

namespace EitanOS

open Gaps

/-- The number of sectors of an entry. -/
def FileEntry.sectors (e : FileEntry) : ℕ := (e.size.toNat + 511) / 512

/-- The sector behind the extent of an entry. -/
def FileEntry.stop (e : FileEntry) : ℕ := e.startSector.toNat + e.sectors

/-- Entry `i` of the table has a nonempty extent. -/
def Occupied (t : FileTable) (i : ℕ) : Prop := i < 640 ∧ (t i).Live ∧ (t i).size ≠ 0

/-- **The extents invariant.** -/
structure ExtentsOk (sc : ℕ) (t : FileTable) : Prop where
  start : ∀ i, Occupied t i → 641 ≤ (t i).startSector.toNat
  stop : ∀ i, Occupied t i → (t i).stop ≤ sc - 1
  disjoint : ∀ i j, Occupied t i → Occupied t j → i ≠ j →
    (t i).stop ≤ (t j).startSector.toNat ∨ (t j).stop ≤ (t i).startSector.toNat

variable {d d' : Drive} {t t' : FileTable} {sc i : ℕ}

theorem occupied_congr (e : t' i = t i) : Occupied t' i ↔ Occupied t i := by rw [Occupied, Occupied, e]

theorem FileEntry.sectors_pos {e : FileEntry} (h : e.size ≠ 0) : 0 < e.sectors := by
  have : e.size.toNat ≠ 0 := fun h' => h (UInt32.toNat_inj.mp h')
  unfold sectors
  omega

/-! ## The order of the disk -/

theorem sortBySector_eq (t : FileTable) (l : List ℕ) : sortBySector t l =
    (l.reverse.insertionSort fun a b => (t b).startSector ≤ (t a).startSector).reverse := by
  rw [sortBySector, List.insertionSort, List.foldr_reverse]

theorem sortBySector_perm (t : FileTable) (l : List ℕ) : (sortBySector t l).Perm l := by
  rw [sortBySector_eq]
  exact (List.reverse_perm _).trans ((List.perm_insertionSort _ _).trans (List.reverse_perm l))

theorem sortBySector_sorted (t : FileTable) (l : List ℕ) : (sortBySector t l).Pairwise
    fun a b => (t a).startSector.toNat ≤ (t b).startSector.toNat := by
  let r : ℕ → ℕ → Prop := fun a b => (t b).startSector ≤ (t a).startSector
  have : Std.Total r := ⟨fun a b => UInt32.le_total _ _⟩
  have : IsTrans ℕ r := ⟨fun a b c h₁ h₂ => UInt32.le_trans h₂ h₁⟩
  rw [sortBySector_eq, List.pairwise_reverse]
  exact (List.pairwise_insertionSort r l.reverse).imp fun {a b} h => UInt32.le_iff_toNat_le.mp h

theorem mem_liveEntries : i ∈ liveEntries t ↔ i < 640 ∧ (t i).Live := by simp [liveEntries]

/-- The nonempty extents, in the order of the disk. -/
def extents (t : FileTable) (l : List ℕ) : List (ℕ × ℕ) :=
  (l.filter fun i => (t i).size ≠ 0).map fun i => ((t i).startSector.toNat, (t i).stop)

theorem mem_extents {l : List ℕ} {x : ℕ × ℕ} : x ∈ extents t l ↔
    ∃ i ∈ l, (t i).size ≠ 0 ∧ ((t i).startSector.toNat, (t i).stop) = x := by
  simp [extents, and_assoc]

theorem ordered_extents_of_sorted {l : List ℕ}
    (hs : l.Pairwise fun a b => (t a).startSector.toNat ≤ (t b).startSector.toNat) (hnd : l.Nodup)
    (hd : ∀ i ∈ l, ∀ j ∈ l, (t i).size ≠ 0 → (t j).size ≠ 0 → i ≠ j →
      (t i).stop ≤ (t j).startSector.toNat ∨ (t j).stop ≤ (t i).startSector.toNat) :
    Ordered (extents t l) := by
  have hmem : ∀ i ∈ l.filter fun i => (t i).size ≠ 0, i ∈ l ∧ (t i).size ≠ 0 := fun i hi => by
    simpa using hi
  refine ordered_of_sorted ?_ ?_ fun x hx => ?_
  · exact List.pairwise_map.mpr (hs.filter _)
  · refine List.pairwise_map.mpr ((hnd.filter _).imp_of_mem fun {i j} hi hj hij => ?_)
    exact hd i (hmem i hi).1 j (hmem j hj).1 (hmem i hi).2 (hmem j hj).2 hij
  · obtain ⟨i, -, hs, rfl⟩ := mem_extents.mp hx
    have := FileEntry.sectors_pos hs
    simp only [FileEntry.stop]
    omega

theorem nodup_sortBySector (t : FileTable) : (sortBySector t (liveEntries t)).Nodup :=
  (sortBySector_perm t _).nodup_iff.mpr (List.nodup_range.filter _)

theorem mem_sortBySector : i ∈ sortBySector t (liveEntries t) ↔ i < 640 ∧ (t i).Live :=
  (sortBySector_perm t _).mem_iff.trans mem_liveEntries

theorem ordered_extents (hd : ∀ i j, Occupied t i → Occupied t j → i ≠ j →
      (t i).stop ≤ (t j).startSector.toNat ∨ (t j).stop ≤ (t i).startSector.toNat) :
    Ordered (extents t (sortBySector t (liveEntries t))) := by
  refine ordered_extents_of_sorted (sortBySector_sorted t _) (nodup_sortBySector t)
    fun i hi j hj hsi hsj hij => ?_
  obtain ⟨h₁, h₂⟩ := mem_sortBySector.mp hi
  obtain ⟨h₃, h₄⟩ := mem_sortBySector.mp hj
  exact hd i j ⟨h₁, h₂, hsi⟩ ⟨h₃, h₄, hsj⟩ hij

/-! ## `find_space_for_file` -/

theorem toNat_stop {e : FileEntry} (h : e.stop ≤ 65535) :
    (e.startSector + (e.size + 511) / 512).toNat = e.stop := by
  unfold FileEntry.stop FileEntry.sectors at *
  have h₁ : (e.size + 511).toNat = e.size.toNat + 511 := by
    rw [UInt32.toNat_add]
    exact Nat.mod_eq_of_lt (by simp; omega)
  rw [UInt32.toNat_add, UInt32.toNat_div, h₁]
  exact Nat.mod_eq_of_lt (by simp; omega)

theorem toNat_trailing (h₂ : d.sectorCount ≤ 65535) {p : UInt32} (hp : p.toNat < d.sectorCount) :
    (UInt32.ofNat d.sectorCount - 1 - p).toNat = d.sectorCount - 1 - p.toNat := by
  have h : (UInt32.ofNat d.sectorCount).toNat = d.sectorCount := by
    rw [UInt32.toNat_ofNat']
    exact Nat.mod_eq_of_lt (by omega)
  have h' : (UInt32.ofNat d.sectorCount - 1).toNat = d.sectorCount - 1 := by
    rw [UInt32.toNat_sub_of_le _ _ (by rw [UInt32.le_iff_toNat_le, h]; simp; omega), h]
    rfl
  rw [UInt32.toNat_sub_of_le _ _ (by rw [UInt32.le_iff_toNat_le, h']; omega), h']

theorem toNat_gap (p q : UInt32) : (if p < q then q - p else 0).toNat = q.toNat - p.toNat := by
  split_ifs with hlt
  · rw [UInt32.toNat_sub_of_le _ _ (UInt32.le_of_lt hlt)]
  · rw [UInt32.lt_iff_toNat_lt] at hlt
    simp
    omega

theorem toNat_needed {size : ℕ} (hs : size ≤ 2 ^ 32) :
    (UInt32.ofNat ((size + 511) % 2 ^ 64 / 512)).toNat = (size + 511) / 512 := by
  rw [UInt32.toNat_ofNat', Nat.mod_eq_of_lt (a := size + 511) (by omega)]
  exact Nat.mod_eq_of_lt (by omega)

theorem gapLoop_eq (h₁ : 642 ≤ d.sectorCount) (h₂ : d.sectorCount ≤ 65535) (needed : UInt32) {p : UInt32}
    {l : List ℕ} (ho : Ordered (extents t l))
    (hl : ∀ x ∈ extents t l, (0 < needed.toNat ∨ p.toNat ≤ x.1) ∧ x.1 ≤ x.2 ∧ x.2 ≤ d.sectorCount - 1)
    (hp : p.toNat ≤ d.sectorCount - 1) :
    (gapLoop d t needed p l).map UInt32.toNat =
      firstGap needed.toNat (d.sectorCount - 1) p.toNat (extents t l) := by
  induction l generalizing p with
  | nil =>
    have hsc := toNat_trailing h₂ (p := p) (by omega)
    simp only [gapLoop, extents, List.filter_nil, List.map_nil, firstGap, UInt32.le_iff_toNat_le,
      hsc]
    split_ifs with h h' h'
    · rfl
    · omega
    · omega
    · rfl
  | cons i l ih =>
    rw [gapLoop]
    by_cases hs : (t i).size = 0
    · have he : extents t (i :: l) = extents t l := by simp [extents, hs]
      rw [he] at ho hl ⊢
      rw [if_pos hs]
      exact ih ho hl hp
    · have he : extents t (i :: l) = ((t i).startSector.toNat, (t i).stop) :: extents t l := by
        simp [extents, hs]
      rw [he] at ho hl ⊢
      obtain ⟨hi, ho⟩ := List.pairwise_cons.mp ho
      obtain ⟨h₃, -, h₄⟩ := hl _ List.mem_cons_self
      have hstop := toNat_stop (e := t i) (by omega)
      simp only [if_neg hs, firstGap, UInt32.le_iff_toNat_le, toNat_gap]
      split_ifs with h h' h'
      · rfl
      · omega
      · omega
      · rw [← hstop] at hi h₄ ⊢
        exact ih ho (fun x hx => ⟨.inr (hi x hx), (hl x (List.mem_cons_of_mem _ hx)).2⟩) h₄

theorem Occupied.mem_extents {i : ℕ} (h : Occupied t i) :
    ((t i).startSector.toNat, (t i).stop) ∈ extents t (sortBySector t (liveEntries t)) := by
  exact EitanOS.mem_extents.mpr ⟨i, mem_sortBySector.mpr ⟨h.1, h.2.1⟩, h.2.2, rfl⟩

theorem occupied_of_mem_extents {x : ℕ × ℕ}
    (hx : x ∈ extents t (sortBySector t (liveEntries t))) :
    ∃ i, Occupied t i ∧ ((t i).startSector.toNat, (t i).stop) = x := by
  obtain ⟨i, hi, hne, e⟩ := mem_extents.mp hx
  obtain ⟨h₁, h₂⟩ := mem_sortBySector.mp hi
  exact ⟨i, ⟨h₁, h₂, hne⟩, e⟩

theorem ExtentsOk.bounds_extents (h : ExtentsOk sc t) :
    ∀ x ∈ extents t (sortBySector t (liveEntries t)), 641 ≤ x.1 ∧ x.1 ≤ x.2 ∧ x.2 ≤ sc - 1 := by
  intro x hx
  obtain ⟨i, hi, rfl⟩ := occupied_of_mem_extents hx
  exact ⟨h.start i hi, Nat.le_add_right _ _, h.stop i hi⟩

/-- **`find_space_for_file`** looks for the first gap between the extents. -/
theorem findSpaceForFile_eq (h : ExtentsOk d.sectorCount t) (h₁ : 642 ≤ d.sectorCount)
    (h₂ : d.sectorCount ≤ 65535) {size : ℕ} (hs : size ≤ 2 ^ 32) :
    (findSpaceForFile d t size).map UInt32.toNat =
      firstGap ((size + 511) / 512) (d.sectorCount - 1) 641
        (extents t (sortBySector t (liveEntries t))) := by
  have h641 : (641 : UInt32).toNat = 641 := rfl
  have hloop := gapLoop_eq h₁ h₂ (UInt32.ofNat ((size + 511) % 2 ^ 64 / 512)) (p := 641)
    (ordered_extents h.disjoint) (fun x hx => (h.bounds_extents x hx).imp_left .inr)
    (by rw [h641]; omega)
  rw [findSpaceForFile, hloop, toNat_needed hs, h641]

theorem findSpaceForFile_spec (h : ExtentsOk d.sectorCount t) (h₁ : 642 ≤ d.sectorCount)
    (h₂ : d.sectorCount ≤ 65535) {size : ℕ} (hs : size ≤ 2 ^ 32) {p : UInt32}
    (e : findSpaceForFile d t size = some p) :
    641 ≤ p.toNat ∧ p.toNat + (size + 511) / 512 ≤ d.sectorCount - 1 ∧
      ∀ i, Occupied t i → p.toNat + (size + 511) / 512 ≤ (t i).startSector.toNat ∨
        (t i).stop ≤ p.toNat := by
  have hgap := findSpaceForFile_eq h h₁ h₂ hs
  rw [e, Option.map_some] at hgap
  obtain ⟨h₃, h₄, h₅⟩ := firstGap_spec (ordered_extents h.disjoint) h.bounds_extents hgap.symm
  exact ⟨h₃, h₄, fun i hi => h₅ _ hi.mem_extents⟩

/-- The search looks for some sectors, unless the file is empty. From about `2 ^ 41` bytes on, the number
of sectors can wrap around to 0. -/
def SeeksSpace (size : ℕ) : Prop := size = 0 ∨ (size + 511) % 2 ^ 64 / 512 % 2 ^ 32 ≠ 0

theorem SeeksSpace.of_le {size : ℕ} (hs : size ≤ 2 ^ 32) : SeeksSpace size := by
  unfold SeeksSpace
  omega

/-- **What is found for a large size** is space for its low 32 bits, and a write moves no more. -/
theorem findSpaceForFile_mod (h : ExtentsOk d.sectorCount t) (h₁ : 642 ≤ d.sectorCount)
    (h₂ : d.sectorCount ≤ 65535) {size : ℕ} (hs : SeeksSpace size) {p : UInt32}
    (e : findSpaceForFile d t size = some p) :
    findSpaceForFile d t (size % 2 ^ 32) = some p ∧ sectorsOf size ≤ (size % 2 ^ 32 + 511) / 512 := by
  have h641 : (641 : UInt32).toNat = 641 := rfl
  have hloop := gapLoop_eq h₁ h₂ (UInt32.ofNat ((size + 511) % 2 ^ 64 / 512)) (p := 641)
    (ordered_extents h.disjoint) (fun x hx => (h.bounds_extents x hx).imp_left .inr)
    (by rw [h641]; omega)
  have e' := e
  rw [findSpaceForFile] at e'
  rw [e', Option.map_some] at hloop
  have hfit := (firstGap_spec (ordered_extents h.disjoint) h.bounds_extents hloop.symm).2.1
  rw [UInt32.toNat_ofNat'] at hfit
  have hmod : (size % 2 ^ 32 + 511) / 512 = (size + 511) % 2 ^ 64 / 512 % 2 ^ 32 := by
    unfold SeeksSpace at hs
    omega
  constructor
  · have hneeded : UInt32.ofNat ((size % 2 ^ 32 + 511) % 2 ^ 64 / 512) =
        UInt32.ofNat ((size + 511) % 2 ^ 64 / 512) := by
      rw [← UInt32.toNat_inj, UInt32.toNat_ofNat', UInt32.toNat_ofNat']
      omega
    rw [findSpaceForFile, hneeded, e']
  · unfold SeeksSpace at hs
    unfold sectorsOf
    split_ifs <;> omega

theorem gapLoop_zero (d : Drive) (t : FileTable) (p : UInt32) (l : List ℕ) :
    gapLoop d t 0 p l = some p := by
  have hle : ∀ g : UInt32, (0 : UInt32) ≤ g := fun g => UInt32.le_iff_toNat_le.mpr (Nat.zero_le _)
  induction l with
  | nil => rw [gapLoop, if_pos (hle _)]
  | cons i l ih =>
    rw [gapLoop]
    dsimp only
    rw [ih, if_pos (hle _), ite_self]

theorem findSpaceForFile_zero (d : Drive) (t : FileTable) : findSpaceForFile d t 0 = some 641 :=
  gapLoop_zero d t 641 _

theorem findSpaceForFile_isSome (h : ExtentsOk d.sectorCount t) (h₁ : 642 ≤ d.sectorCount)
    (h₂ : d.sectorCount ≤ 65535) {size a : ℕ} (hs : size ≤ 2 ^ 32) (ha : 641 ≤ a)
    (hb : a + (size + 511) / 512 ≤ d.sectorCount - 1)
    (hd : ∀ i, Occupied t i → a + (size + 511) / 512 ≤ (t i).startSector.toNat ∨ (t i).stop ≤ a) :
    (findSpaceForFile d t size).isSome := by
  rw [← Option.isSome_map (f := UInt32.toNat), findSpaceForFile_eq h h₁ h₂ hs]
  refine firstGap_isSome ha hb fun x hx => ?_
  obtain ⟨i, hi, rfl⟩ := occupied_of_mem_extents hx
  exact hd i hi

/-! The search looks at the entries below 640 only. -/

theorem sortBySector_congr {l : List ℕ} (h : ∀ i ∈ l, t' i = t i) :
    sortBySector t' l = sortBySector t l := by
  rw [sortBySector_eq, sortBySector_eq]
  have := List.map_insertionSort (fun a b => (t' b).startSector ≤ (t' a).startSector)
    (fun a b => (t b).startSector ≤ (t a).startSector) id l.reverse fun a ha b hb => by
      rw [h a (List.mem_reverse.1 ha), h b (List.mem_reverse.1 hb)]
      rfl
  rw [List.map_id, List.map_id] at this
  rw [this]

theorem gapLoop_congr (hd : d'.sectorCount = d.sectorCount) (needed p : UInt32) {l : List ℕ}
    (h : ∀ i ∈ l, t' i = t i) : gapLoop d' t' needed p l = gapLoop d t needed p l := by
  induction l generalizing p with
  | nil => rw [gapLoop, gapLoop, hd]
  | cons i l ih =>
    obtain ⟨hi, hl⟩ := List.forall_mem_cons.mp h
    rw [gapLoop, gapLoop, hi, ih _ hl, ih _ hl]

theorem findSpaceForFile_congr (hd : d'.sectorCount = d.sectorCount)
    (h : ∀ i < 640, t' i = t i) (size : ℕ) :
    findSpaceForFile d' t' size = findSpaceForFile d t size := by
  have hlive : liveEntries t' = liveEntries t :=
    List.filter_congr fun i hi => by rw [h i (List.mem_range.1 hi)]
  have hl : ∀ i ∈ liveEntries t, t' i = t i := fun i hi => h i (mem_liveEntries.1 hi).1
  rw [findSpaceForFile, findSpaceForFile, hlive, sortBySector_congr hl]
  exact gapLoop_congr hd _ _ fun i hi => hl i ((sortBySector_perm t _).mem_iff.1 hi)

/-! ## Changing the table -/

theorem Occupied.clear {j : ℕ} (h : Occupied (t.clear i) j) : Occupied t j ∧ j ≠ i := by
  obtain ⟨h₁, h₂, h₃⟩ := h
  have hj : j ≠ i := by
    rintro rfl
    simp [FileTable.clear, FileEntry.Live, magic] at h₂
  rw [FileTable.clear, Function.update_of_ne hj] at h₂ h₃
  exact ⟨⟨h₁, h₂, h₃⟩, hj⟩

theorem FileTable.clear_of_ne {j : ℕ} (h : j ≠ i) : t.clear i j = t j :=
  Function.update_of_ne h _ _

theorem FileTable.clear_congr (h : ∀ j < 640, t' j = t j) (i : ℕ) :
    ∀ j < 640, t'.clear i j = t.clear i j := by
  intro j hj
  by_cases e : j = i
  · subst e
    rw [FileTable.clear, FileTable.clear, h j hj, Function.update_self, Function.update_self]
  · rw [FileTable.clear_of_ne e, FileTable.clear_of_ne e, h j hj]

theorem ExtentsOk.mono (h : ExtentsOk sc t) (ho : ∀ j, Occupied t' j → Occupied t j ∧ t' j = t j) :
    ExtentsOk sc t' := by
  refine ⟨fun j hj => ?_, fun j hj => ?_, fun j k hj hk hjk => ?_⟩
  · rw [(ho j hj).2]
    exact h.start j (ho j hj).1
  · rw [(ho j hj).2]
    exact h.stop j (ho j hj).1
  · rw [(ho j hj).2, (ho k hk).2]
    exact h.disjoint j k (ho j hj).1 (ho k hk).1 hjk

theorem ExtentsOk.clear (h : ExtentsOk sc t) (i : ℕ) : ExtentsOk sc (t.clear i) :=
  h.mono fun _ hj => ⟨hj.clear.1, FileTable.clear_of_ne hj.clear.2⟩

/-- **Placing an entry** where it meets no other extent. -/
theorem ExtentsOk.place (h : ExtentsOk sc t) {e : FileEntry} (h₁ : 641 ≤ e.startSector.toNat)
    (h₂ : e.stop ≤ sc - 1)
    (hd : ∀ j, Occupied t j → j ≠ i → e.stop ≤ (t j).startSector.toNat ∨
      (t j).stop ≤ e.startSector.toNat) : ExtentsOk sc (Function.update t i e) := by
  have hocc : ∀ j, j ≠ i → Occupied (Function.update t i e) j → Occupied t j := fun j hj =>
    (occupied_congr (Function.update_of_ne hj e t)).1
  refine ⟨fun j hj => ?_, fun j hj => ?_, fun j k hj hk hjk => ?_⟩
  · by_cases hji : j = i
    · subst hji; simpa using h₁
    · rw [Function.update_of_ne hji]; exact h.start j (hocc j hji hj)
  · by_cases hji : j = i
    · subst hji; simpa using h₂
    · rw [Function.update_of_ne hji]; exact h.stop j (hocc j hji hj)
  · by_cases hji : j = i
    · subst hji
      have hk' := hocc k (Ne.symm hjk) hk
      rw [Function.update_self, Function.update_of_ne (Ne.symm hjk)]
      exact hd k hk' (Ne.symm hjk)
    · by_cases hki : k = i
      · subst hki
        rw [Function.update_self, Function.update_of_ne hji]
        exact (hd j (hocc j hji hj) hji).symm
      · rw [Function.update_of_ne hji, Function.update_of_ne hki]
        exact h.disjoint j k (hocc j hji hj) (hocc k hki hk) hjk

theorem Occupied.clear_of_ne {j : ℕ} (h : Occupied t j) (hj : j ≠ i) : Occupied (t.clear i) j :=
  (occupied_congr (FileTable.clear_of_ne hj)).2 h

/-! ## Sizes that wrap around -/

section Wraps

variable {size : ℕ}

theorem findSpaceForFile_wraps (hs : ¬ SeeksSpace size) (d : Drive) (t : FileTable) :
    findSpaceForFile d t size = some 641 := by
  have hneeded : UInt32.ofNat ((size + 511) % 2 ^ 64 / 512) = 0 := by
    rw [← UInt32.toNat_inj, UInt32.toNat_ofNat']
    unfold SeeksSpace at hs
    simp
    omega
  rw [findSpaceForFile, hneeded]
  exact gapLoop_zero d t 641 _

/-- **One sector is written** for such a size. -/
theorem sectorsOf_wraps (hs : ¬ SeeksSpace size) : sectorsOf size = 1 := by
  unfold SeeksSpace at hs
  rw [sectorsOf, if_neg (by omega)]

/-- The entry starts behind the table and has no sectors for the search, whatever its size is. -/
def FileEntry.Hollow (e : FileEntry) : Prop := e.startSector = 641 ∧ (e.size + 511) / 512 = 0

theorem hollow_wraps (hs : ¬ SeeksSpace size) (type : UInt32) :
    (FileEntry.mk magic type 641 (UInt32.ofNat size)).Hollow := by
  refine ⟨rfl, ?_⟩
  rw [← UInt32.toNat_inj, UInt32.toNat_div, UInt32.toNat_add, UInt32.toNat_ofNat']
  unfold SeeksSpace at hs
  simp
  omega

/-- The search can go on from `p` through the entries `l`. -/
def Ahead (d : Drive) (t : FileTable) (l : List ℕ) (p : UInt32) : Prop :=
  641 ≤ p.toNat ∧ p.toNat ≤ d.sectorCount - 1 ∧
    ∀ j ∈ l, (t j).size ≠ 0 → p.toNat ≤ (t j).startSector.toNat

/-- Entries that start at 641 at the latest leave no gap. -/
theorem gapLoop_append {l₁ l₂ : List ℕ} {needed p : UInt32} (hn : needed ≠ 0) (hp : Ahead d t l₂ p)
    (hl : ∀ i ∈ l₁, (t i).size ≠ 0 → (t i).startSector.toNat ≤ 641 ∧
      Ahead d t l₂ ((t i).startSector + ((t i).size + 511) / 512)) :
    ∃ p', Ahead d t l₂ p' ∧ gapLoop d t needed p (l₁ ++ l₂) = gapLoop d t needed p' l₂ := by
  induction l₁ generalizing p with
  | nil => exact ⟨p, hp, rfl⟩
  | cons i l ih =>
    obtain ⟨hi, hl⟩ := List.forall_mem_cons.mp hl
    rw [List.cons_append, gapLoop]
    dsimp only
    by_cases hs : (t i).size = 0
    · rw [if_pos hs]
      exact ih hp hl
    · have hlt : ¬ p < (t i).startSector := by
        have := (hi hs).1
        have := hp.1
        rw [UInt32.lt_iff_toNat_lt]
        omega
      have hgap : ¬ needed ≤ 0 := fun hle =>
        hn (UInt32.le_antisymm hle (UInt32.le_iff_toNat_le.mpr (Nat.zero_le _)))
      rw [if_neg hs, if_neg hlt, if_neg hgap]
      exact ih (hi hs).2 hl

section Hollow

variable (hi : (t i).Hollow) (h : ExtentsOk d.sectorCount (t.clear i)) (h₁ : 642 ≤ d.sectorCount)
  (h₂ : d.sectorCount ≤ 65535) {l l₁ l₂ : List ℕ}
  (hl : ∀ j ∈ l, (j < 640 ∧ (t j).Live) ∧ 641 < (t j).startSector.toNat)

include hi hl in
theorem FileEntry.Hollow.ne_of_mem {j : ℕ} (hj : j ∈ l) : j ≠ i := by
  rintro rfl
  have := (hl j hj).2
  rw [hi.1] at this
  exact absurd this (by decide)

include hi hl in
theorem FileEntry.Hollow.occupied {j : ℕ} (hj : j ∈ l) (hs : (t j).size ≠ 0) :
    Occupied (t.clear i) j ∧ t.clear i j = t j :=
  ⟨Occupied.clear_of_ne ⟨(hl j hj).1.1, (hl j hj).1.2, hs⟩ (hi.ne_of_mem hl hj),
    FileTable.clear_of_ne (hi.ne_of_mem hl hj)⟩

include hi h h₁ h₂ hl in
/-- **From what starts at 641**, the search goes on in front of the others. -/
theorem FileEntry.Hollow.ahead {k : ℕ} (hk : k < 640 ∧ (t k).Live)
    (hst : (t k).startSector.toNat ≤ 641) (hs : (t k).size ≠ 0) :
    Ahead d t l ((t k).startSector + ((t k).size + 511) / 512) := by
  have h641 : (641 : UInt32).toNat = 641 := rfl
  by_cases hki : k = i
  · subst hki
    rw [hi.1, hi.2, add_zero]
    exact ⟨le_rfl, by rw [h641]; omega, fun j hj _ => (hl j hj).2.le⟩
  · have ho := Occupied.clear_of_ne (i := i) ⟨hk.1, hk.2, hs⟩ hki
    have hge := h.start k ho
    have hstop := h.stop k ho
    rw [FileTable.clear_of_ne hki] at hge hstop
    rw [Ahead, toNat_stop (by omega)]
    refine ⟨hge.trans (Nat.le_add_right _ _), hstop, fun j hj hsj => ?_⟩
    have hlt := (hl j hj).2
    obtain ⟨hoj, e⟩ := hi.occupied hl hj hsj
    have hd := h.disjoint k j ho hoj fun e => by
      subst e
      omega
    rw [FileTable.clear_of_ne hki, e] at hd
    refine hd.resolve_right fun hle => ?_
    unfold FileEntry.stop at hle
    omega

include hi h hl in
theorem FileEntry.Hollow.bounds {x : ℕ × ℕ} (hx : x ∈ extents t l) :
    x.1 ≤ x.2 ∧ x.2 ≤ d.sectorCount - 1 := by
  obtain ⟨j, hj, hs, rfl⟩ := mem_extents.mp hx
  obtain ⟨ho, e⟩ := hi.occupied hl hj hs
  have hstop := h.stop j ho
  rw [e] at hstop
  exact ⟨Nat.le_add_right _ _, hstop⟩

include hi h h₁ h₂ in
/-- **The search with a hollow entry**: it can go back over what starts at 641, but meets no other
extent. -/
theorem findSpaceForFile_hollow (hn : 0 < size) (hs : size ≤ 2 ^ 32) {p : UInt32}
    (e : findSpaceForFile d t size = some p) :
    641 ≤ p.toNat ∧ p.toNat + (size + 511) / 512 ≤ d.sectorCount - 1 ∧
      ∀ j, Occupied t j → j ≠ i → (t j).startSector ≠ 641 →
        p.toNat + (size + 511) / 512 ≤ (t j).startSector.toNat ∨ (t j).stop ≤ p.toNat := by
  have hneeded := toNat_needed hs
  generalize hw : UInt32.ofNat ((size + 511) % 2 ^ 64 / 512) = needed at hneeded
  have hne : needed ≠ 0 := by
    rintro rfl
    simp at hneeded
    omega
  rw [findSpaceForFile, hw] at e
  have hmem : ∀ j, j ∈ sortBySector t (liveEntries t) ↔ j < 640 ∧ (t j).Live := fun _ => mem_sortBySector
  have hsorted := sortBySector_sorted t (liveEntries t)
  have hnd := nodup_sortBySector t
  obtain ⟨l₁, l₂, hl, hlow, hhigh⟩ := exists_split_of_sorted hsorted 641
  rw [hl] at e hsorted hnd hmem
  have hl₂ : ∀ j ∈ l₂, (j < 640 ∧ (t j).Live) ∧ 641 < (t j).startSector.toNat := fun j hj =>
    ⟨(hmem j).1 (List.mem_append_right _ hj), hhigh j hj⟩
  have hord : Ordered (extents t l₂) := by
    refine ordered_extents_of_sorted (hsorted.sublist (List.sublist_append_right _ _))
      (hnd.sublist (List.sublist_append_right _ _)) fun j hj k hk hsj hsk hjk => ?_
    obtain ⟨hoj, ej⟩ := hi.occupied hl₂ hj hsj
    obtain ⟨hok, ek⟩ := hi.occupied hl₂ hk hsk
    have hd := h.disjoint j k hoj hok hjk
    rwa [ej, ek] at hd
  obtain ⟨p', hp, hskip⟩ := gapLoop_append (d := d) (p := 641) hne
    ⟨le_rfl, by show 641 ≤ _; omega, fun j hj _ => (hhigh j hj).le⟩ fun k hk hsk =>
      ⟨hlow k hk, hi.ahead h h₁ h₂ hl₂ ((hmem k).1 (List.mem_append_left _ hk)) (hlow k hk) hsk⟩
  have hfrom : ∀ x ∈ extents t l₂, p'.toNat ≤ x.1 := by
    intro x hx
    obtain ⟨j, hj, hs, rfl⟩ := mem_extents.mp hx
    exact hp.2.2 j hj hs
  have hgap := gapLoop_eq h₁ h₂ needed hord (p := p')
    (fun x hx => ⟨.inr (hfrom x hx), hi.bounds h hl₂ hx⟩) hp.2.1
  rw [← hskip, e, Option.map_some, hneeded] at hgap
  obtain ⟨g₁, g₂, g₃⟩ := firstGap_spec hord (fun x hx => ⟨hfrom x hx, hi.bounds h hl₂ hx⟩) hgap.symm
  refine ⟨hp.1.trans g₁, g₂, fun j hj hji hst => ?_⟩
  have hj₂ : j ∈ l₂ := by
    refine (List.mem_append.1 ((hmem j).2 ⟨hj.1, hj.2.1⟩)).resolve_left fun hj₁ => hst ?_
    have hlo := hlow j hj₁
    have hge := h.start j (hj.clear_of_ne hji)
    rw [FileTable.clear_of_ne hji] at hge
    exact UInt32.toNat_inj.mp (by show _ = 641; omega)
  exact g₃ _ (mem_extents.mpr ⟨j, hj₂, hj.2.2, rfl⟩)

end Hollow

end Wraps

end EitanOS
