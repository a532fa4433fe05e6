import EitanOS.Memory.Frames

/-!
# Frames at boot (`pmm_init`)

The bitmap is put at the start of the first usable region that can hold it, everything is marked as
used, the usable regions are marked as free, and the frames of the bitmap as used again.

* `pmmInit_free`: the frames that are free after it.
* **`pmmInit_safe_iff`**: `pmm_free_region` takes the frame at its end too, so the frames that are
  free are all usable exactly if every usable region but the topmost ends in another one.
* **`pmmInit_frees_reserved`**: a memory map of which a reserved frame is free afterwards.
-/

namespace EitanOS

/-- `LIMINE_MEMMAP_*`. -/
inductive MemmapType
  | usable
  | reserved
  | acpiReclaimable
  | acpiNvs
  | badMemory
  | bootloaderReclaimable
  | executableAndModules
  | framebuffer
  | reservedMapped
deriving DecidableEq

/-- `limine_memmap_entry`. Physical addresses have at most 52 bits. -/
structure MemmapEntry where
  base : ℕ
  length : ℕ
  type : MemmapType
  limit_le : base + length ≤ 2 ^ 52

/-- Where a region ends. -/
def MemmapEntry.limit (e : MemmapEntry) : ℕ := e.base + e.length

/-- The body of the loop that computes `top_of_ram`. -/
def raiseTop (top : ℕ) (e : MemmapEntry) : ℕ :=
  if e.type = .usable ∧ top < e.limit then e.limit else top

/-- `top_of_ram`. -/
def topOfRam (es : List MemmapEntry) : ℕ := es.foldl raiseTop 0

/-- `pmm_bitmap_size`. -/
def bitmapSize (es : List MemmapEntry) : ℕ := (topOfRam es / 4096 + 7) / 8

/-- The region can hold a bitmap of the size. -/
def holdsBitmap (size : ℕ) (e : MemmapEntry) : Bool := e.type = .usable ∧ size ≤ e.length

/-- The region without its first `size` bytes. -/
def MemmapEntry.drop (e : MemmapEntry) (size : ℕ) (h : size ≤ e.length) : MemmapEntry :=
  ⟨e.base + size, e.length - size, e.type, by have := e.limit_le; omega⟩

/-- The loop that finds a place for the bitmap: its address and the entries then. -/
def placeBitmap (size : ℕ) : List MemmapEntry → Option (ℕ × List MemmapEntry)
  | [] => none
  | e :: es =>
    if h : e.type = .usable ∧ size ≤ e.length then some (e.base, e.drop size h.2 :: es)
    else (placeBitmap size es).map fun r => (r.1, e :: r.2)

/-- The loop of `pmm_free_region` and of step 5: mark the frames from `start` to `stop`. -/
def setFrames (m : Pmm) (start stop : ℕ) (used : Bool) : Pmm :=
  (List.range' (start / 4096) (stop / 4096 + 1 - start / 4096)).foldl
    (fun m i => pmmSetFrame m i used) m

/-- `pmm_free_region`. -/
def pmmFreeRegion (m : Pmm) (start stop : ℕ) : Pmm := setFrames m start stop false

/-- The loop of step 4. -/
def freeUsable (m : Pmm) (es : List MemmapEntry) : Pmm :=
  es.foldl (fun m e => if e.type = .usable then pmmFreeRegion m e.base e.limit else m) m

/-- The frames, and the physical address of the bitmap. -/
structure BootFrames where
  pmm : Pmm
  bitmapPhys : ℕ

theorem foldl_raiseTop (es : List MemmapEntry) (top : ℕ) : es.foldl raiseTop top = top ∨
    ∃ e ∈ es, e.type = .usable ∧ es.foldl raiseTop top = e.limit := by
  induction es generalizing top with
  | nil => exact .inl rfl
  | cons e es ih =>
    rw [List.foldl_cons]
    rcases ih (raiseTop top e) with h | ⟨e', he', h⟩
    · rw [h, raiseTop]
      split_ifs with hc
      · exact .inr ⟨e, List.mem_cons_self, hc.1, rfl⟩
      · exact .inl rfl
    · exact .inr ⟨e', List.mem_cons_of_mem _ he', h⟩

theorem totalFrames_boot_le (es : List MemmapEntry) : topOfRam es / 4096 ≤ 2 ^ 40 := by
  have : topOfRam es ≤ 2 ^ 52 := by
    rcases foldl_raiseTop es 0 with h | ⟨e, -, -, h⟩
    · exact h.le.trans (Nat.zero_le _)
    · exact h.le.trans e.limit_le
  omega

/-- `pmm_init`; `mem` is the memory behind the bitmap. `none` where no region can hold it. -/
def pmmInit (mem : ℕ → UInt8) (es : List MemmapEntry) : Option BootFrames :=
  (placeBitmap (bitmapSize es) es).map fun (bitmapPhys, es') =>
    let m : Pmm := ⟨fun i => if i < bitmapSize es then 0xFF else mem i, topOfRam es / 4096,
      totalFrames_boot_le es, false, false⟩
    ⟨setFrames (freeUsable m es') bitmapPhys (bitmapPhys + bitmapSize es) true, bitmapPhys⟩

variable {es : List MemmapEntry} {m : Pmm} {f : ℕ}

/-! ## The top of RAM -/

/-- The usable regions consist of whole frames. -/
def UsableAligned (es : List MemmapEntry) : Prop :=
  ∀ e ∈ es, e.type = .usable → 4096 ∣ e.base ∧ 4096 ∣ e.length

theorem UsableAligned.limit (h : UsableAligned es) {e : MemmapEntry} (he : e ∈ es)
    (hu : e.type = .usable) : 4096 ∣ e.limit :=
  (Nat.dvd_add_right (h e he hu).1).mpr (h e he hu).2

theorem UsableAligned.topOfRam (h : UsableAligned es) : 4096 ∣ topOfRam es := by
  unfold EitanOS.topOfRam
  rcases foldl_raiseTop es 0 with h₀ | ⟨e, he, hu, h₀⟩
  · rw [h₀]
    exact dvd_zero 4096
  · rw [h₀]
    exact h.limit he hu

/-! ## The marks -/

theorem getFrame_foldl_setFrame (l : List ℕ) (m : Pmm) (used : Bool) (f : ℕ) :
    pmmGetFrame (l.foldl (fun m i => pmmSetFrame m i used) m) f =
      if f ∈ l then used else pmmGetFrame m f := by
  induction l generalizing m with
  | nil => simp
  | cons i l ih =>
    rw [List.foldl_cons, ih, getFrame_setFrame]
    by_cases hl : f ∈ l
    · simp [hl]
    · by_cases hi : f = i
      · simp [hi]
      · simp [hl, hi]

theorem mem_region {start stop : ℕ} : f ∈ List.range' (start / 4096) (stop / 4096 + 1 - start / 4096) ↔
    start / 4096 ≤ f ∧ f ≤ stop / 4096 := by
  rw [List.mem_range'_1]
  omega

theorem getFrame_setFrames (m : Pmm) (start stop f : ℕ) (used : Bool) :
    pmmGetFrame (setFrames m start stop used) f =
      if start / 4096 ≤ f ∧ f ≤ stop / 4096 then used else pmmGetFrame m f := by
  rw [setFrames, getFrame_foldl_setFrame, if_congr mem_region rfl rfl]

/-- **What step 4 marks as free.** -/
theorem getFrame_freeUsable : pmmGetFrame (freeUsable m es) f = false ↔
    pmmGetFrame m f = false ∨
      ∃ e ∈ es, e.type = .usable ∧ e.base / 4096 ≤ f ∧ f ≤ e.limit / 4096 := by
  unfold freeUsable
  induction es generalizing m with
  | nil => simp
  | cons e es ih =>
    rw [List.foldl_cons, ih]
    simp only [List.mem_cons, exists_eq_or_imp]
    by_cases hu : e.type = .usable
    · rw [if_pos hu, pmmFreeRegion, getFrame_setFrames]
      by_cases hf : e.base / 4096 ≤ f ∧ f ≤ e.limit / 4096
      · simp [hu, hf]
      · simp [hu, hf]
    · rw [if_neg hu]
      simp [hu]

theorem totalFrames_foldl_setFrame (l : List ℕ) (m : Pmm) (used : Bool) :
    (l.foldl (fun m i => pmmSetFrame m i used) m).totalFrames = m.totalFrames := by
  induction l generalizing m with
  | nil => rfl
  | cons i l ih => rw [List.foldl_cons, ih, setFrame_totalFrames]

theorem totalFrames_freeUsable (m : Pmm) (es : List MemmapEntry) :
    (freeUsable m es).totalFrames = m.totalFrames := by
  unfold freeUsable
  induction es generalizing m with
  | nil => rfl
  | cons e es ih =>
    rw [List.foldl_cons, ih]
    split_ifs
    · exact totalFrames_foldl_setFrame _ _ _
    · rfl

theorem getFrame_of_ones {f : ℕ} (h : m.bitmap (f / 8) = 0xFF) : pmmGetFrame m f = true := by
  have hf : f % 8 < 8 := Nat.mod_lt _ (by decide)
  unfold pmmGetFrame
  rw [shiftRight_and_one _ hf, h]
  generalize f % 8 = j at hf
  interval_cases j <;> rfl

/-! ## The place of the bitmap -/

/-- The region the bitmap is put in. -/
def bitmapEntry (es : List MemmapEntry) : Option MemmapEntry := es.find? (holdsBitmap (bitmapSize es))

theorem placeBitmap_eq (size : ℕ) (es : List MemmapEntry) :
    (placeBitmap size es).map Prod.fst = (es.find? (holdsBitmap size)).map MemmapEntry.base := by
  induction es with
  | nil => rfl
  | cons e es ih =>
    rw [placeBitmap, List.find?_cons]
    by_cases h : e.type = .usable ∧ size ≤ e.length
    · rw [dif_pos h, show holdsBitmap size e = true from decide_eq_true h]
      rfl
    · rw [dif_neg h, show holdsBitmap size e = false from decide_eq_false h, Option.map_map, ← ih]
      rfl

theorem placeBitmap_mem {size phys : ℕ} {es es' : List MemmapEntry}
    (h : placeBitmap size es = some (phys, es')) :
    (∀ e' ∈ es', ∃ e ∈ es, e'.type = e.type ∧ e.base ≤ e'.base ∧ e'.limit = e.limit) ∧
      ∀ e ∈ es, ∃ e' ∈ es', e'.type = e.type ∧ e'.base ≤ e'.limit ∧ e'.limit = e.limit := by
  induction es generalizing es' with
  | nil => cases h
  | cons e es ih =>
    rw [placeBitmap] at h
    have hself : ∀ a : MemmapEntry, a.base ≤ a.limit := fun a => Nat.le_add_right _ _
    split_ifs at h with hc
    · obtain ⟨rfl, rfl⟩ := Prod.mk.inj (Option.some.inj h)
      have hlim : (e.drop size hc.2).limit = e.limit := by
        simp only [MemmapEntry.drop, MemmapEntry.limit]
        omega
      constructor
      · intro a ha
        rcases List.mem_cons.mp ha with rfl | ha
        · exact ⟨e, List.mem_cons_self, rfl, Nat.le_add_right _ _, hlim⟩
        · exact ⟨a, List.mem_cons_of_mem _ ha, rfl, le_rfl, rfl⟩
      · intro a ha
        rcases List.mem_cons.mp ha with rfl | ha
        · exact ⟨_, List.mem_cons_self, rfl, hself _, hlim⟩
        · exact ⟨a, List.mem_cons_of_mem _ ha, rfl, hself a, rfl⟩
    · obtain ⟨⟨phys', l⟩, hr, he⟩ := Option.map_eq_some_iff.mp h
      obtain ⟨rfl, rfl⟩ := Prod.mk.inj he
      obtain ⟨h₁, h₂⟩ := ih hr
      constructor
      · intro a ha
        rcases List.mem_cons.mp ha with rfl | ha
        · exact ⟨a, List.mem_cons_self, rfl, le_rfl, rfl⟩
        · obtain ⟨b, hb, hab⟩ := h₁ a ha
          exact ⟨b, List.mem_cons_of_mem _ hb, hab⟩
      · intro a ha
        rcases List.mem_cons.mp ha with rfl | ha
        · exact ⟨a, List.mem_cons_self, rfl, hself a, rfl⟩
        · obtain ⟨b, hb, hab⟩ := h₂ a ha
          exact ⟨b, List.mem_cons_of_mem _ hb, hab⟩

theorem exists_bitmapEntry (h : ∃ e ∈ es, e.type = .usable ∧ bitmapSize es ≤ e.length) :
    ∃ b, bitmapEntry es = some b := by
  obtain ⟨e, he, hu, hle⟩ := h
  exact Option.isSome_iff_exists.mp (List.find?_isSome.mpr ⟨e, he, decide_eq_true ⟨hu, hle⟩⟩)

theorem bitmapEntry_spec {b : MemmapEntry} (h : bitmapEntry es = some b) :
    b ∈ es ∧ b.type = .usable ∧ bitmapSize es ≤ b.length := by
  have hb := List.find?_some h
  exact ⟨List.mem_of_find?_eq_some h, of_decide_eq_true hb⟩

/-! ## After `pmm_init` -/

/-- The whole frame lies inside a usable region. -/
def InUsable (es : List MemmapEntry) (f : ℕ) : Prop :=
  ∃ e ∈ es, e.type = .usable ∧ e.base ≤ f * 4096 ∧ (f + 1) * 4096 ≤ e.limit

/-- The frame has a byte of the bitmap. -/
def MeetsBitmap (phys size f : ℕ) : Prop :=
  ∃ a, f * 4096 ≤ a ∧ a < (f + 1) * 4096 ∧ phys ≤ a ∧ a < phys + size

/-- **The frames that are free after `pmm_init`**: those from the start of a usable region to its end
and including it, without those of the bitmap. -/
theorem pmmInit_free (mem : ℕ → UInt8) {b : MemmapEntry} (hb : bitmapEntry es = some b) :
    ∃ r es', pmmInit mem es = some r ∧ placeBitmap (bitmapSize es) es = some (b.base, es') ∧
      r.bitmapPhys = b.base ∧ r.pmm.totalFrames = topOfRam es / 4096 ∧
      ∀ f < topOfRam es / 4096, pmmGetFrame r.pmm f = false ↔
        ¬ (b.base / 4096 ≤ f ∧ f ≤ (b.base + bitmapSize es) / 4096) ∧
          ∃ e ∈ es', e.type = .usable ∧ e.base / 4096 ≤ f ∧ f ≤ e.limit / 4096 := by
  have hplace := placeBitmap_eq (bitmapSize es) es
  rw [show es.find? (holdsBitmap (bitmapSize es)) = some b from hb] at hplace
  obtain ⟨⟨phys, es'⟩, hp, rfl⟩ := Option.map_eq_some_iff.mp hplace
  refine ⟨_, es', Option.map_eq_some_iff.mpr ⟨_, hp, rfl⟩, hp, rfl, ?_, fun f hf => ?_⟩
  · exact (totalFrames_foldl_setFrame _ _ true).trans (totalFrames_freeUsable _ es')
  · dsimp only
    rw [getFrame_setFrames]
    split_ifs with hbm
    · simp [hbm]
    · rw [getFrame_freeUsable, getFrame_of_ones]
      · simp [hbm]
      · exact if_pos (by unfold bitmapSize; omega)

/-- Where `pmm_free_region` goes one frame too far: the frame at the end of a usable region is in a
usable region too, or the last one `pmm_init` reserves for the bitmap. -/
def EndsCovered (es : List MemmapEntry) : Prop :=
  ∀ e ∈ es, e.type = .usable → e.limit < topOfRam es →
    (∃ e' ∈ es, e'.type = .usable ∧ e'.base ≤ e.limit ∧ e.limit < e'.limit) ∨
      ∃ b, bitmapEntry es = some b ∧ b.length = bitmapSize es ∧ e.limit = b.limit

/-- **When the frames that are free after `pmm_init` are safe**: for every memory map whose usable
regions consist of whole frames and one of which can hold the bitmap. -/
theorem pmmInit_safe_iff {es : List MemmapEntry} (ha : UsableAligned es)
    (hb : ∃ e ∈ es, e.type = .usable ∧ bitmapSize es ≤ e.length) (mem : ℕ → UInt8) :
    ∃ r, pmmInit mem es = some r ∧
      ((∀ f < r.pmm.totalFrames, pmmGetFrame r.pmm f = false →
        InUsable es f ∧ ¬ MeetsBitmap r.bitmapPhys (bitmapSize es) f) ↔ EndsCovered es) := by
  obtain ⟨b, hbe⟩ := exists_bitmapEntry hb
  obtain ⟨hbm, hbu, hbl⟩ := bitmapEntry_spec hbe
  obtain ⟨r, es', hr, hplace, hphys, htotal, hfree⟩ := pmmInit_free mem hbe
  obtain ⟨hback, hforth⟩ := placeBitmap_mem hplace
  have hbase := (ha b hbm hbu).1
  have htop := ha.topOfRam
  have hblim : b.limit = b.base + b.length := rfl
  refine ⟨r, hr, fun hsafe e he hu hlt => ?_, fun hcov f hf hff => ?_⟩
  · have hlim := ha.limit he hu
    have hf : e.limit / 4096 < topOfRam es / 4096 := by omega
    by_cases hres : b.base / 4096 ≤ e.limit / 4096 ∧ e.limit / 4096 ≤ (b.base + bitmapSize es) / 4096
    · -- the frame is reserved for the bitmap, whose region it is in or right behind
      by_cases hin : e.limit < b.limit
      · exact .inl ⟨b, hbm, hbu, by omega, hin⟩
      · exact .inr ⟨b, hbe, by omega, by omega⟩
    · obtain ⟨e', he', ht', hle', hlim'⟩ := hforth e he
      have hmark := (hfree _ hf).mpr ⟨hres, e', he', ht'.trans hu, by omega, by omega⟩
      obtain ⟨a, ha', hua, h₁, h₂⟩ := (hsafe _ (htotal ▸ hf) hmark).1
      exact .inl ⟨a, ha', hua, by omega, by omega⟩
  · rw [htotal] at hf
    obtain ⟨hres, e', he', hu', h₁, h₂⟩ := (hfree f hf).mp hff
    obtain ⟨e, he, ht, hle, hlim⟩ := hback e' he'
    have hu := ht.symm.trans hu'
    have hba := (ha e he hu).1
    have hla := ha.limit he hu
    refine ⟨?_, ?_⟩
    · by_cases hend : f = e.limit / 4096
      · rcases hcov e he hu (by omega) with ⟨a, ha', hua, h₃, h₄⟩ | ⟨b', hb', h₃, h₄⟩
        · have hal := ha.limit ha' hua
          exact ⟨a, ha', hua, by omega, by omega⟩
        · obtain rfl := Option.some.inj (hbe.symm.trans hb')
          exact absurd ⟨by omega, by omega⟩ hres
      · exact ⟨e, he, hu, by omega, by omega⟩
    · rintro ⟨a, h₃, h₄, h₅, h₆⟩
      exact hres ⟨by omega, by omega⟩

/-- Two usable regions with nothing between them. -/
def adjacentMap : List MemmapEntry :=
  [⟨0x1000, 0x2000, .usable, by decide⟩, ⟨0x3000, 0x5000, .usable, by decide⟩]

theorem pmmInit_safe_adjacent : ∃ r, pmmInit (fun _ => 0) adjacentMap = some r ∧
    ∀ f < r.pmm.totalFrames, pmmGetFrame r.pmm f = false →
      InUsable adjacentMap f ∧ ¬ MeetsBitmap r.bitmapPhys (bitmapSize adjacentMap) f := by
  have ha : UsableAligned adjacentMap := by
    unfold UsableAligned adjacentMap
    decide
  obtain ⟨r, hr, hiff⟩ := pmmInit_safe_iff ha ⟨_, List.mem_cons_self, rfl, by decide⟩ fun _ => 0
  refine ⟨r, hr, hiff.mpr fun e he _ hlt => .inl ⟨_, List.mem_cons_of_mem _ List.mem_cons_self, rfl, ?_⟩⟩
  have htop : topOfRam adjacentMap = 0x8000 := rfl
  rw [htop] at hlt
  simp only [adjacentMap, List.mem_cons, List.not_mem_nil, or_false] at he
  rcases he with rfl | rfl
  · decide
  · exact absurd hlt (by decide)

/-- Two usable regions with a reserved frame between them. -/
def gapMap : List MemmapEntry :=
  [⟨0x1000, 0x2000, .usable, by decide⟩, ⟨0x3000, 0x1000, .reserved, by decide⟩,
    ⟨0x4000, 0x4000, .usable, by decide⟩]

/-- **A reserved frame is free after `pmm_init`.** -/
theorem pmmInit_frees_reserved : UsableAligned gapMap ∧ ∃ r, pmmInit (fun _ => 0) gapMap = some r ∧
    3 < r.pmm.totalFrames ∧ pmmGetFrame r.pmm 3 = false ∧ ¬ InUsable gapMap 3 := by
  refine ⟨?_, _, rfl, by decide, by decide, ?_⟩
  · unfold UsableAligned gapMap
    decide
  · unfold InUsable gapMap
    simp [MemmapEntry.limit]

end EitanOS
