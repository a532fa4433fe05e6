import EitanOS.Disk.Extents
import Mathlib.Order.Interval.Set.Disjoint
import Mathlib.Order.CompletePartialOrder

/-!
# Sector counts and the search for space

`find_space_for_file`, `write_sectors` and `read_sectors` each count the sectors of a file on their
own, and the search works with a start sector of its own.

* `transferred`: the sectors a read or a write moves. **`sector_counts_agree`**: they are those of the
  file exactly up to 255 sectors.
* **`space_search_bounded`**: what is found ends on the disk, except where the search starts behind
  its end.
* **`space_search_complete`**: space is found where there is some, except in front of sector 641.
-/

namespace EitanOS

open Bytes Gaps

variable {d d' : Drive} {t : FileTable} {size lba k : ℕ} {src target data : Buf} {p start : UInt32}

/-! ## Sectors that are moved -/

/-- The number of sectors `read_sectors` and `write_sectors` move: 0 when they return early. -/
def transferred (d : Drive) (lba size : ℕ) : ℕ :=
  let count := sectorsOf size
  if count < 1 ∨ d.sectorCount ≤ (lba + count) % 2 ^ 32 then 0 else count

theorem writeSectors_transferred : writeSectors d lba src size = { d with
    bytes := put d.bytes (lba % 2 ^ 28 * 512) (fun k => if k < size then src k else 0)
      (transferred d lba size * 512) } := by
  unfold writeSectors transferred
  dsimp only
  split_ifs
  · have hnone : put d.bytes (lba % 2 ^ 28 * 512) (fun k => if k < size then src k else 0) (0 * 512) =
        d.bytes := by
      funext k
      exact put_outside (by omega)
    rw [hnone]
  · rfl

theorem readSectors_transferred : readSectors d lba target size = fun k =>
    if k < size ∧ k < transferred d lba size * 512 then d.bytes (lba % 2 ^ 28 * 512 + k)
    else if k = size ∧ size % 2 = 1 ∧ k < transferred d lba size * 512 then 0
    else target k := by
  unfold readSectors transferred
  dsimp only
  split_ifs
  · funext k
    simp
  · rfl

theorem transferred_le : transferred d lba size ≤ 255 := by
  unfold transferred sectorsOf
  dsimp only
  split_ifs <;> omega

theorem transferred_of_le (hs : size ≤ 255 * 512) (h : 0 < size)
    (hfit : (lba + (size + 511) / 512) % 2 ^ 32 < d.sectorCount) :
    transferred d lba size = (size + 511) / 512 := by
  unfold transferred
  dsimp only
  rw [sectorsOf_eq hs, if_neg (by omega)]

theorem transferred_eq_iff : transferred d lba size = (size + 511) / 512 ↔
    size = 0 ∨ size ≤ 255 * 512 ∧ (lba + (size + 511) / 512) % 2 ^ 32 < d.sectorCount := by
  constructor
  · intro e
    have hle : transferred d lba size ≤ 255 := transferred_le
    rw [or_iff_not_imp_left]
    intro h₀
    have hs : size ≤ 255 * 512 := by omega
    refine ⟨hs, ?_⟩
    by_contra hfit
    unfold transferred at e
    dsimp only at e
    rw [sectorsOf_eq hs, if_pos (.inr (by omega))] at e
    omega
  · rintro (rfl | ⟨hs, hfit⟩)
    · rfl
    · by_cases h₀ : size = 0
      · subst h₀
        rfl
      · exact transferred_of_le hs (by omega) hfit

/-- **A write of at most 255 sectors that succeeds has put the data on the disk.** -/
theorem DriveOk.written {sc : ℕ} (h : DriveOk sc d) {junk : Junk} {path : List UInt8}
    {type : FileType} (hs : size ≤ 255 * 512)
    (e : EitanOS.writeFile junk d path data type size = (true, d')) :
    ∃ a, 641 ≤ a ∧ a + (size + 511) / 512 < sc ∧ ∀ k < size, d'.bytes (a * 512 + k) = data k := by
  obtain ⟨rfl, h₁, h₂, -⟩ := id h
  obtain ⟨-, ⟨-, i, s', -, -, he, rfl⟩ | ⟨-, start, i, dir, s', hspace, -, -, ha, rfl⟩⟩ :=
    writeFile_true e
  · obtain ⟨-, start, hf, rfl⟩ := editFile_true he
    dsimp only at hf
    obtain ⟨h₃, h₄, -⟩ := findSpaceForFile_spec ((h.load _).clear i) h₁ h₂ (by omega) hf
    refine ⟨start.toNat, h₃, by omega, fun k hk => ?_⟩
    rw [saveFileTable_outside _ (by omega)]
    dsimp only
    exact writeSectors_inside hs h₂ (by omega) hk
  · obtain ⟨h₃, h₄, -⟩ := findSpaceForFile_spec (h.load _) h₁ h₂ (by omega) hspace
    have hsc : s'.drive.sectorCount = d.sectorCount := by
      obtain ⟨hx, -, -⟩ := (h.tableOk (junk.sub 1)).place (i := i) (.of_le (by omega)) type.code
        (fun j hj _ => ⟨hj, rfl⟩) (h.load _) hspace
      have ht : TableOk d.sectorCount ⟨d, Function.update (loadFileTable (junk.sub 1) d) i
        ⟨magic, type.code, start, UInt32.ofNat size⟩⟩ := ⟨rfl, h₁, h₂, hx⟩
      exact (ht.addFileToDir ha).1.sectors
    refine ⟨start.toNat, h₃, by omega, fun k hk => ?_⟩
    exact writeSectors_inside hs (hsc ▸ h₂) (by omega) hk

/-- **The sector counts agree** for a place that `find_space_for_file` has found exactly if the file has
at most 255 sectors and the place is on the disk, which it is where the extents are in order. Then a
write that returns true has put all its data on the disk. -/
theorem sector_counts_agree (h₁ : 642 ≤ d.sectorCount) (h₂ : d.sectorCount ≤ 65535)
    (hs : size < 2 ^ 64) (e : findSpaceForFile d t size = some start) :
    (transferred d start.toNat size = (size + 511) / 512 ↔ size = 0 ∨
      size ≤ 255 * 512 ∧ (start.toNat + (size + 511) / 512) % 2 ^ 32 < d.sectorCount) ∧
    (ExtentsOk d.sectorCount t →
      (transferred d start.toNat size = (size + 511) / 512 ↔ size ≤ 255 * 512)) ∧
    (ExtentsOk d.sectorCount (diskTable d) → size ≤ 255 * 512 →
      ∀ junk path data type d', writeFile junk d path data type size = (true, d') →
        ∃ a, 641 ≤ a ∧ a + (size + 511) / 512 < d.sectorCount ∧
          ∀ k < size, d'.bytes (a * 512 + k) = data k) := by
  refine ⟨transferred_eq_iff, fun hx => ?_, fun hx hle junk path data type d' he => ?_⟩
  · rw [transferred_eq_iff]
    constructor
    · rintro (rfl | ⟨hle, -⟩)
      · exact Nat.zero_le _
      · exact hle
    · intro hle
      have hfit := (findSpaceForFile_spec hx h₁ h₂ (by omega) e).2.1
      rw [or_iff_not_imp_left]
      exact fun _ => ⟨hle, by omega⟩
  · have hd : DriveOk d.sectorCount d := ⟨rfl, h₁, h₂, hx⟩
    exact hd.written hle he

theorem findSpaceForFile_blankDrive : findSpaceForFile blankDrive rootTable 1000 = some 641 := by
  decide +kernel

theorem sector_counts_agree_two_sectors :
    findSpaceForFile blankDrive rootTable 1000 = some 641 ∧ transferred blankDrive 641 1000 = 2 := by
  have e := findSpaceForFile_blankDrive
  refine ⟨e, (sector_counts_agree (by decide) (by decide) (by decide) e).1.mpr ?_⟩
  exact .inr (by decide)

/-- **A file of 256 sectors**: there is space for it and the write returns true, but the count of
sectors is 0, and not even the first byte gets to the disk. -/
theorem sector_count_wraps :
    findSpaceForFile (saveFileTable blankDrive rootTable) rootTable (256 * 512) = some 641 ∧
      transferred (saveFileTable blankDrive rootTable) 641 (256 * 512) = 0 ∧
      ∃ d', writeFile (fun _ _ => 0) (saveFileTable blankDrive rootTable) [47, 97] (fun _ => 7) .file
          (256 * 512) = (true, d') ∧
        diskTable d' 1 = ⟨magic, FileType.file.code, 641, 256 * 512⟩ ∧ d'.bytes (641 * 512) = 0 := by
  refine ⟨by decide +kernel, by decide +kernel, ?_⟩
  have h : (writeFile (fun _ _ => 0) (saveFileTable blankDrive rootTable) [47, 97] (fun _ => 7) .file
      (256 * 512)).1 = true ∧
      diskTable (writeFile (fun _ _ => 0) (saveFileTable blankDrive rootTable) [47, 97] (fun _ => 7)
        .file (256 * 512)).2 1 = ⟨magic, FileType.file.code, 641, 256 * 512⟩ ∧
      (writeFile (fun _ _ => 0) (saveFileTable blankDrive rootTable) [47, 97] (fun _ => 7) .file
        (256 * 512)).2.bytes (641 * 512) = 0 := by
    decide +kernel
  obtain ⟨h₁, h₂, h₃⟩ := h
  generalize writeFile (fun _ _ => 0) (saveFileTable blankDrive rootTable) [47, 97] (fun _ => 7) .file
    (256 * 512) = x at h₁ h₂ h₃ ⊢
  obtain ⟨b, d'⟩ := x
  exact ⟨d', congrArg (·, d') h₁, h₂, h₃⟩

/-! ## Where the space found ends -/

theorem gapLoop_of_empty (needed p : UInt32) {l : List ℕ} (hl : ∀ i ∈ l, (t i).size = 0) :
    gapLoop d t needed p l = gapLoop d t needed p [] := by
  induction l with
  | nil => rfl
  | cons i l ih =>
    obtain ⟨hi, hl⟩ := List.forall_mem_cons.mp hl
    have hskip : gapLoop d t needed p (i :: l) = gapLoop d t needed p l := by rw [gapLoop, if_pos hi]
    rw [hskip, ih hl]

/-- **The space found ends on the disk** if the search starts there, or passes an extent. -/
theorem gapLoop_bound (h₂ : d.sectorCount ≤ 65535) {needed p q : UInt32} {l : List ℕ}
    (hl : ∀ i ∈ l, (t i).size ≠ 0 → (t i).stop < d.sectorCount)
    (hp : p.toNat < d.sectorCount ∨ 0 < needed.toNat ∧ ∃ i ∈ l, (t i).size ≠ 0)
    (e : gapLoop d t needed p l = some q) : q.toNat + needed.toNat < d.sectorCount := by
  induction l generalizing p with
  | nil =>
    have hp' : p.toNat < d.sectorCount := by
      refine hp.resolve_right ?_
      rintro ⟨-, i, hi, -⟩
      exact List.not_mem_nil hi
    rw [gapLoop] at e
    split_ifs at e with h
    rw [UInt32.le_iff_toNat_le, toNat_trailing h₂ hp'] at h
    obtain rfl := Option.some.inj e
    omega
  | cons i l ih =>
    obtain ⟨hi, hl⟩ := List.forall_mem_cons.mp hl
    simp only [gapLoop, UInt32.le_iff_toNat_le, toNat_gap] at e
    split_ifs at e with h₀ h
    · refine ih hl (hp.imp id ?_) e
      rintro ⟨hn, j, hj, hj₀⟩
      rcases List.mem_cons.mp hj with rfl | hj
      · exact absurd h₀ hj₀
      · exact ⟨hn, j, hj, hj₀⟩
    · have hstop := hi h₀
      unfold FileEntry.stop at hstop
      obtain rfl := Option.some.inj e
      omega
    · have hstop := toNat_stop (e := t i) (by have := hi h₀; omega)
      exact ih hl (.inl (by rw [hstop]; exact hi h₀)) e

theorem gapLoop_wraps (h : d.sectorCount < 642) {needed : UInt32} (hn : needed.toNat ≤ 2 ^ 23) :
    gapLoop d t needed 641 [] = some 641 := by
  have hsc : (UInt32.ofNat d.sectorCount).toNat = d.sectorCount := by
    rw [UInt32.toNat_ofNat']
    exact Nat.mod_eq_of_lt (by omega)
  have hwrap : (UInt32.ofNat d.sectorCount - 1 - 641).toNat = 2 ^ 32 + d.sectorCount - 642 := by
    rw [UInt32.toNat_sub, UInt32.toNat_sub, hsc]
    simp only [UInt32.reduceToNat]
    omega
  rw [gapLoop, if_pos (by rw [UInt32.le_iff_toNat_le, hwrap]; omega)]

/-- **The space found ends on the disk** exactly if the disk has the 642 sectors up to where the search
starts, or the search is for some sectors and there is an extent to pass. -/
theorem space_search_bounded (h₂ : d.sectorCount ≤ 65535)
    (hx : ∀ i, Occupied t i → (t i).stop < d.sectorCount) (hs : size < 2 ^ 32) :
    (∀ p, findSpaceForFile d t size = some p → p.toNat + (size + 511) / 512 < d.sectorCount) ↔
      642 ≤ d.sectorCount ∨ 0 < size ∧ ∃ i, Occupied t i := by
  have hneeded : (UInt32.ofNat ((size + 511) % 2 ^ 64 / 512)).toNat = (size + 511) / 512 :=
    toNat_needed (by omega)
  have h641 : (641 : UInt32).toNat = 641 := rfl
  have hmem : ∀ i, i ∈ sortBySector t (liveEntries t) ↔ i < 640 ∧ (t i).Live := fun i => by
    rw [(sortBySector_perm t _).mem_iff, mem_liveEntries]
  constructor
  · intro h
    by_contra hn
    rw [not_or, not_and_or] at hn
    have e : findSpaceForFile d t size = some 641 := by
      rcases hn.2 with h₀ | h₀
      · obtain rfl : size = 0 := by omega
        exact findSpaceForFile_zero d t
      · rw [findSpaceForFile, gapLoop_of_empty]
        · exact gapLoop_wraps (by omega) (by omega)
        · intro i hi
          by_contra hi₀
          obtain ⟨hlt, hl⟩ := (hmem i).mp hi
          exact h₀ ⟨i, hlt, hl, hi₀⟩
    have := h 641 e
    omega
  · intro h p e
    rw [← hneeded]
    refine gapLoop_bound h₂ (fun i hi h₀ => ?_) (h.imp (fun h => ?_) ?_) e
    · obtain ⟨hlt, hl⟩ := (hmem i).mp hi
      exact hx i ⟨hlt, hl, h₀⟩
    · rw [h641]
      omega
    · rintro ⟨h₀, i, hlt, hl, hi⟩
      exact ⟨by omega, i, (hmem i).mpr ⟨hlt, hl⟩, hi⟩

/-- Two files of one sector, with one free sector between them. -/
def twoExtents : FileTable :=
  Function.update (Function.update rootTable 1 ⟨magic, FileType.file.code, 641, 3⟩) 2
    ⟨magic, FileType.file.code, 643, 3⟩

theorem twoExtents_occupied {i : ℕ} (h : Occupied twoExtents i) : i = 1 ∨ i = 2 := by
  by_contra hn
  rw [not_or] at hn
  refine rootTable_not_occupied i ?_
  have e : twoExtents i = rootTable i := by
    rw [twoExtents, Function.update_of_ne hn.2, Function.update_of_ne hn.1]
  unfold Occupied at h ⊢
  rwa [e] at h

theorem findSpaceForFile_twoExtents : findSpaceForFile blankDrive twoExtents 1000 = some 644 := by
  decide +kernel

theorem space_search_bounded_two_extents : findSpaceForFile blankDrive twoExtents 1000 = some 644 ∧
    (644 : UInt32).toNat + (1000 + 511) / 512 < blankDrive.sectorCount := by
  have e := findSpaceForFile_twoExtents
  refine ⟨e, (space_search_bounded (by decide) (fun i hi => ?_) (by decide)).mpr (.inl (by decide)) 644 e⟩
  rcases twoExtents_occupied hi with rfl | rfl <;> decide

/-- **A disk of 641 sectors** ends where the search starts. There is no extent, and space for one
sector is found behind the end. -/
theorem space_search_past_end :
    findSpaceForFile ⟨fun _ => 0, 641⟩ rootTable 1 = some 641 ∧
      ¬ (641 : UInt32).toNat + (1 + 511) / 512 < 641 :=
  ⟨by decide +kernel, by decide⟩

/-! ## Which space is found -/

/-- The nonempty extents are disjoint and lie in `[lo, sc - 1)`. -/
structure ExtentsIn (lo sc : ℕ) (t : FileTable) : Prop where
  start : ∀ i, Occupied t i → lo ≤ (t i).startSector.toNat
  stop : ∀ i, Occupied t i → (t i).stop ≤ sc - 1
  disjoint : ∀ i j, Occupied t i → Occupied t j → i ≠ j →
    Disjoint (Set.Ico (t i).startSector.toNat (t i).stop)
      (Set.Ico (t j).startSector.toNat (t j).stop)

/-- The `n` sectors from `a` on lie in `[lo, sc - 1)` and meet no nonempty extent. -/
def FreeRun (lo sc : ℕ) (t : FileTable) (n a : ℕ) : Prop :=
  lo ≤ a ∧ a + n ≤ sc - 1 ∧ ∀ i, Occupied t i →
    Disjoint (Set.Ico a (a + n)) (Set.Ico (t i).startSector.toNat (t i).stop)

theorem Occupied.start_lt {i : ℕ} (h : Occupied t i) : (t i).startSector.toNat < (t i).stop := by
  have := FileEntry.sectors_pos h.2.2
  unfold FileEntry.stop
  omega

theorem disjoint_Ico_iff {a b c e : ℕ} (h₁ : a < b) (h₂ : c < e) :
    Disjoint (Set.Ico a b) (Set.Ico c e) ↔ b ≤ c ∨ e ≤ a := by
  rw [Set.Ico_disjoint_Ico]
  omega

/-- **Space is found** exactly if there is some from sector 641 on, or behind an extent. -/
theorem findSpaceForFile_isSome_iff (h : ExtentsIn 21 d.sectorCount t) (h₁ : 642 ≤ d.sectorCount)
    (h₂ : d.sectorCount ≤ 65535) (hs : size < 2 ^ 32) :
    (findSpaceForFile d t size).isSome ↔ ∃ a, FreeRun 21 d.sectorCount t ((size + 511) / 512) a ∧
      (641 ≤ a ∨ ∃ i, Occupied t i ∧ (t i).stop ≤ a) := by
  have h641 : (641 : UInt32).toNat = 641 := rfl
  have hneeded : (UInt32.ofNat ((size + 511) % 2 ^ 64 / 512)).toNat = (size + 511) / 512 :=
    toNat_needed (by omega)
  by_cases h₀ : size = 0
  · subst h₀
    refine iff_of_true ?_ ⟨641, ⟨by omega, by omega, fun i _ => ?_⟩, .inl le_rfl⟩
    · rw [findSpaceForFile_zero]
      rfl
    · rw [Set.Ico_eq_empty (by omega)]
      exact Set.empty_disjoint _
  have hbounds : ∀ x ∈ extents t (sortBySector t (liveEntries t)),
      x.1 ≤ x.2 ∧ x.2 ≤ d.sectorCount - 1 := fun x hx => by
    obtain ⟨i, hi, rfl⟩ := occupied_of_mem_extents hx
    exact ⟨hi.start_lt.le, h.stop i hi⟩
  have ho : Ordered (extents t (sortBySector t (liveEntries t))) :=
    ordered_extents fun i j hi hj hij =>
      (disjoint_Ico_iff hi.start_lt hj.start_lt).mp (h.disjoint i j hi hj hij)
  have hgap := gapLoop_eq h₁ h₂ (UInt32.ofNat ((size + 511) % 2 ^ 64 / 512)) (p := 641) ho
    (fun x hx => ⟨.inl (by omega), hbounds x hx⟩) (by omega)
  rw [findSpaceForFile, ← Option.isSome_map (f := UInt32.toNat), hgap, hneeded, h641,
    firstGap_isSome_iff ho hbounds]
  -- the same runs, said of the intervals in order and of the entries
  have hfree : ∀ a, (∀ x ∈ extents t (sortBySector t (liveEntries t)),
      a + (size + 511) / 512 ≤ x.1 ∨ x.2 ≤ a) ↔ ∀ i, Occupied t i →
        Disjoint (Set.Ico a (a + (size + 511) / 512))
          (Set.Ico (t i).startSector.toNat (t i).stop) := by
    intro a
    constructor
    · intro hd i hi
      rw [disjoint_Ico_iff (by omega) hi.start_lt]
      exact hd _ hi.mem_extents
    · intro hd x hx
      obtain ⟨i, hi, rfl⟩ := occupied_of_mem_extents hx
      exact (disjoint_Ico_iff (by omega) hi.start_lt).mp (hd i hi)
  constructor
  · rintro ⟨a, ha, hd, hp⟩
    have hp' : 641 ≤ a ∨ ∃ i, Occupied t i ∧ (t i).stop ≤ a := by
      refine hp.imp id ?_
      rintro ⟨x, hx, hxa⟩
      obtain ⟨i, hi, rfl⟩ := occupied_of_mem_extents hx
      exact ⟨i, hi, hxa⟩
    refine ⟨a, ⟨?_, ha, (hfree a).mp hd⟩, hp'⟩
    rcases hp' with hp' | ⟨i, hi, hp'⟩
    · omega
    · have := h.start i hi
      have := hi.start_lt
      omega
  · rintro ⟨a, ⟨-, ha, hd⟩, hp⟩
    refine ⟨a, ha, (hfree a).mpr hd, hp.imp id ?_⟩
    rintro ⟨i, hi, hia⟩
    exact ⟨_, hi.mem_extents, hia⟩

/-- **The search is complete** for the data area behind the file table exactly if a free run in it, if
there is one, can also be found from sector 641 on or behind an extent. -/
theorem space_search_complete (h : ExtentsIn 21 d.sectorCount t) (h₁ : 642 ≤ d.sectorCount)
    (h₂ : d.sectorCount ≤ 65535) (hs : size < 2 ^ 32) :
    (findSpaceForFile d t size = none →
        ¬ ∃ a, FreeRun 21 d.sectorCount t ((size + 511) / 512) a) ↔
      ((∃ a, FreeRun 21 d.sectorCount t ((size + 511) / 512) a) →
        ∃ a, FreeRun 21 d.sectorCount t ((size + 511) / 512) a ∧
          (641 ≤ a ∨ ∃ i, Occupied t i ∧ (t i).stop ≤ a)) := by
  rw [← findSpaceForFile_isSome_iff h h₁ h₂ hs, ← Option.not_isSome_iff_eq_none]
  constructor
  · intro hc hfree
    by_contra hn
    exact hc hn hfree
  · exact fun hc hn hfree => hn (hc hfree)

theorem extentsIn_rootTable (lo sc : ℕ) : ExtentsIn lo sc rootTable :=
  ⟨fun i hi => absurd hi (rootTable_not_occupied i), fun i hi => absurd hi (rootTable_not_occupied i),
    fun i _ hi => absurd hi (rootTable_not_occupied i)⟩

theorem freeRun_rootTable {lo sc n a : ℕ} (h₁ : lo ≤ a) (h₂ : a + n ≤ sc - 1) :
    FreeRun lo sc rootTable n a :=
  ⟨h₁, h₂, fun i hi => absurd hi (rootTable_not_occupied i)⟩

theorem extentsIn_twoExtents : ExtentsIn 21 1000 twoExtents := by
  refine ⟨fun i hi => ?_, fun i hi => ?_, fun i j hi hj hij => (disjoint_Ico_iff hi.start_lt hj.start_lt).2 ?_⟩
  · rcases twoExtents_occupied hi with rfl | rfl <;> decide
  · rcases twoExtents_occupied hi with rfl | rfl <;> decide
  · rcases twoExtents_occupied hi with rfl | rfl <;> rcases twoExtents_occupied hj with rfl | rfl <;>
      first | exact absurd rfl hij | decide

theorem space_search_complete_two_extents : findSpaceForFile blankDrive twoExtents 1000 ≠ none ∧
    (findSpaceForFile blankDrive twoExtents 1000 = none →
      ¬ ∃ a, FreeRun 21 blankDrive.sectorCount twoExtents ((1000 + 511) / 512) a) := by
  refine ⟨by rw [findSpaceForFile_twoExtents]; nofun, (space_search_complete extentsIn_twoExtents
    (by decide) (by decide) (by decide)).mpr fun _ => ⟨644, ⟨by decide, by decide, fun i hi => ?_⟩, .inl (by decide)⟩⟩
  rw [disjoint_Ico_iff (by decide) hi.start_lt]
  rcases twoExtents_occupied hi with rfl | rfl <;> decide

/-- **A disk of 642 sectors with no extents**: 620 sectors behind the table are free, and there is no
space for one byte. -/
theorem space_search_incomplete :
    ExtentsIn 21 642 rootTable ∧ findSpaceForFile ⟨fun _ => 0, 642⟩ rootTable 1 = none ∧
      FreeRun 21 642 rootTable ((1 + 511) / 512) 21 :=
  ⟨extentsIn_rootTable 21 642, by decide +kernel, freeRun_rootTable (by decide) (by decide)⟩

end EitanOS
