import EitanOS.Process.Image

/-!
# Where a program is loaded to

`program_loader_load_elf64` copies every segment to the address its program header gives. It does not
check where a segment ends, that its file part fits, or that `vmm_alloc` has mapped its pages.

* `Contained`: every store goes to an address of a segment, in the user half, on a page that
  `vmm_alloc` has mapped for it.
* `SegmentsFine`: the segments are in the user half, hold their file part, and share no page.
* `MapsSegments.step`: what loading one segment does.
* **`load_contained`**: the first holds exactly where the second does.
-/

namespace EitanOS

open Bytes

namespace ProgramHeaderEntry

/-- An address of the segment. -/
def Covers (e : ProgramHeaderEntry) (a : ℕ) : Prop :=
  e.start ≤ a ∧ a < e.start + e.memorySize.toNat

/-- A page that `vmm_alloc` is asked for. -/
def HasPage (e : ProgramHeaderEntry) (q : ℕ) : Prop := ∃ j < e.amount, q = e.start / 4096 + j

/-- The segment is in the user half. An empty one on a page boundary has no page. -/
def InUserHalf (e : ProgramHeaderEntry) : Prop :=
  e.start + e.memorySize.toNat ≤ 2 ^ 47 ∨ e.memorySize.toNat = 0 ∧ e.start % 4096 = 0

end ProgramHeaderEntry

/-- The segments with the memory each one is loaded in. -/
def segmentRun (file : Buf) : Ram → List ProgramHeaderEntry → List (ProgramHeaderEntry × Ram)
  | _, [] => []
  | r, e :: es => (e, r) :: segmentRun file (loadSegment file r e) es

/-- `a` is an address of the segment, in the user half, and its page is not mapped before `vmm_alloc`
and is mapped after it. -/
structure Home (x : ProgramHeaderEntry × Ram) (a : ℕ) : Prop where
  covers : x.1.Covers a
  user : a < 2 ^ 47
  before : vmmIsMapped x.2.vmm a = false
  after : vmmIsMapped (x.1.alloc x.2.vmm).2 a = true

/-- **Every store goes to an address of a segment loaded so far**, of those in the first list or of
the run itself. -/
def Contained (file : Buf) : List (ProgramHeaderEntry × Ram) → List (ProgramHeaderEntry × Ram) → Prop
  | _, [] => True
  | earlier, x :: l =>
    (∀ y ∈ x.1.stores file, ∃ z ∈ x :: earlier, Home z y.1) ∧ Contained file (x :: earlier) l

/-- **What has to hold of the segments.** Each one is in the user half, holds its file part, and
shares no page with the ones mapped before it, in the first list. One that does is not mapped; all of
it then has to be in the segments mapped before. -/
def SegmentsFine : List ProgramHeaderEntry → List ProgramHeaderEntry → Prop
  | _, [] => True
  | mapped, e :: es => e.InUserHalf ∧ e.fileSize.toNat ≤ e.memorySize.toNat ∧
    ((∀ q, e.HasPage q → ∀ e' ∈ mapped, ¬ e'.HasPage q) ∧ SegmentsFine (e :: mapped) es ∨
      (∃ q, e.HasPage q ∧ ∃ e' ∈ mapped, e'.HasPage q) ∧
        (∀ a, e.Covers a → ∃ e' ∈ mapped, e'.Covers a) ∧ SegmentsFine mapped es)

variable {file : Buf} {r : Ram} {v : Vmm} {e : ProgramHeaderEntry} {es mapped : List ProgramHeaderEntry}
  {earlier : List (ProgramHeaderEntry × Ram)} {a q : ℕ}

/-! ## The addresses of a segment -/

theorem mem_memcpyStores {dest size : ℕ} {src : Buf} :
    (∃ y ∈ memcpyStores dest src size, y.1 = a) ↔ ∃ k < size, a = (dest + k) % 2 ^ 64 := by
  unfold memcpyStores
  constructor
  · rintro ⟨y, hy, rfl⟩
    obtain ⟨k, hk, rfl⟩ := List.mem_map.1 hy
    exact ⟨k, List.mem_range.1 hk, rfl⟩
  · rintro ⟨k, hk, rfl⟩
    exact ⟨_, List.mem_map.2 ⟨k, List.mem_range.2 hk, rfl⟩, rfl⟩

namespace ProgramHeaderEntry

/-- **Where a segment is stored**: from its start on, as many bytes as the two sizes add up to. -/
theorem mem_stores : (∃ y ∈ e.stores file, y.1 = a) ↔
    ∃ k < e.fileSize.toNat + (e.memorySize - e.fileSize).toNat, a = (e.start + k) % 2 ^ 64 := by
  unfold stores memsetStores
  simp only [List.mem_append, or_and_right, exists_or, mem_memcpyStores]
  constructor
  · rintro (⟨k, hk, rfl⟩ | ⟨k, hk, rfl⟩)
    · exact ⟨k, by omega, rfl⟩
    · exact ⟨e.fileSize.toNat + k, by omega, by omega⟩
  · rintro ⟨k, hk, rfl⟩
    by_cases hlt : k < e.fileSize.toNat
    · exact .inl ⟨k, hlt, rfl⟩
    · exact .inr ⟨k - e.fileSize.toNat, by omega, by omega⟩

theorem start_lt (e : ProgramHeaderEntry) : e.start < 2 ^ 64 := e.virtualAddress.toNat_lt

theorem last_eq (e : ProgramHeaderEntry) :
    e.last = (2 ^ 64 - 1 + (e.start + e.memorySize.toNat) % 2 ^ 64) % 2 ^ 64 := by
  unfold last start
  rw [UInt64.toNat_sub, UInt64.toNat_add]
  rfl

theorem sub_toNat (e : ProgramHeaderEntry) : (e.memorySize - e.fileSize).toNat =
    (2 ^ 64 - e.fileSize.toNat + e.memorySize.toNat) % 2 ^ 64 := UInt64.toNat_sub _ _

theorem mem_stores_of_le (hu : e.InUserHalf) (hle : e.fileSize.toNat ≤ e.memorySize.toNat) :
    (∃ y ∈ e.stores file, y.1 = a) ↔ e.Covers a := by
  have hm := e.memorySize.toNat_lt
  have hs := e.start_lt
  have hsub := e.sub_toNat
  rw [mem_stores]
  unfold Covers
  unfold InUserHalf at hu
  constructor
  · rintro ⟨k, hk, rfl⟩
    omega
  · rintro ⟨h₁, h₂⟩
    exact ⟨a - e.start, by omega, by omega⟩

/-- **A segment outside the user half**, or whose file part does not fit, has a store outside. -/
theorem store_outside (h : ¬ (e.InUserHalf ∧ e.fileSize.toNat ≤ e.memorySize.toNat))
    (hne : e.memorySize.toNat = 0 → e.fileSize.toNat = 0 → e.InUserHalf) :
    ∃ y ∈ e.stores file, 2 ^ 47 ≤ y.1 := by
  have hm := e.memorySize.toNat_lt
  have hf := e.fileSize.toNat_lt
  have hs := e.start_lt
  have hsub := e.sub_toNat
  suffices hk : ∃ k < e.fileSize.toNat + (e.memorySize - e.fileSize).toNat,
      2 ^ 47 ≤ (e.start + k) % 2 ^ 64 by
    obtain ⟨k, hk, hle⟩ := hk
    obtain ⟨y, hy, e'⟩ := mem_stores.2 ⟨k, hk, rfl⟩
    exact ⟨y, hy, e' ▸ hle⟩
  by_cases hle : e.fileSize.toNat ≤ e.memorySize.toNat
  · have hu : ¬ e.InUserHalf := fun hu => h ⟨hu, hle⟩
    have hne' : ¬ (e.memorySize.toNat = 0 ∧ e.fileSize.toNat = 0) := fun he => hu (hne he.1 he.2)
    unfold InUserHalf at hu
    -- the first byte of it that is not in the user half
    exact ⟨2 ^ 47 - e.start, by omega, by omega⟩
  · -- the rest of the loop goes through all addresses
    exact ⟨(2 ^ 63 + 2 ^ 64 - e.start) % 2 ^ 64, by omega, by omega⟩

theorem InUserHalf.range (hu : e.InUserHalf) (hpos : 0 < e.start) :
    e.amount = 0 ∨ ∃ b, UserRange e.start b ∧ e.amount ≤ pageAmount e.start b := by
  have hm := e.memorySize.toNat_lt
  have hs := e.start_lt
  have hl := e.last_eq
  unfold InUserHalf at hu
  by_cases hz : e.memorySize.toNat = 0
  · by_cases ha : e.start % 4096 = 0
    · left
      unfold amount pageAmount
      rw [if_neg (by omega)]
      omega
    · right
      refine ⟨e.start, ⟨le_rfl, by omega⟩, ?_⟩
      unfold amount pageAmount
      rw [if_pos (by omega), if_pos le_rfl]
      omega
  · right
    exact ⟨e.last, ⟨by omega, by omega⟩, le_rfl⟩

theorem Covers.hasPage (hu : e.InUserHalf) (hpos : 0 < e.start) (h : e.Covers a) :
    e.HasPage (a / 4096) ∧ a < 2 ^ 47 := by
  have hl := e.last_eq
  unfold Covers at h
  unfold InUserHalf at hu
  refine ⟨⟨a / 4096 - e.start / 4096, ?_, by omega⟩, by omega⟩
  unfold amount pageAmount
  rw [if_pos (by omega)]
  omega

end ProgramHeaderEntry

/-! ## Loading one segment -/

/-- The user half is well formed, in frames below `2 ^ 28`, and the pages of the given segments are
mapped in it. -/
structure MapsSegments (mapped : List ProgramHeaderEntry) (v : Vmm) : Prop where
  ok : LowHalfOk v
  low : (view v).Low
  pages : ∀ q, (view v q).isSome ↔ ∃ e ∈ mapped, e.HasPage q

theorem mapsSegments_newSpace {v₀ : Vmm} {kernel pml4 : ℕ}
    (hd : ∀ f < v₀.pmm.totalFrames, v₀.hhdm f ≠ 0) (hn : newSpace v₀ kernel = some (pml4, v))
    (ho : v.pmm.outOfLowFrames = false) : MapsSegments [] v := by
  obtain ⟨hok, hview⟩ := newSpace_ok hd hn ho
  exact ⟨hok, fun q b hb => by simp [hview q] at hb, fun q => by simp [hview q]⟩

theorem loadSegment_outOfLowFrames (h : (loadSegment file r e).vmm.pmm.outOfLowFrames = false) :
    (e.alloc r.vmm).2.pmm.outOfLowFrames = false ∧ r.vmm.pmm.outOfLowFrames = false := by
  rw [loadSegment_vmm] at h
  unfold ProgramHeaderEntry.edit vmmEditPages at h
  rw [editLoop_pmm] at h
  exact ⟨h, allocPages_outOfLowFrames h⟩

theorem foldl_loadSegment_outOfLowFrames
    (h : (es.foldl (loadSegment file) r).vmm.pmm.outOfLowFrames = false) :
    r.vmm.pmm.outOfLowFrames = false := by
  induction es generalizing r with
  | nil => exact h
  | cons e es ih => exact (loadSegment_outOfLowFrames (ih h)).2

theorem ProgramHeaderEntry.alloc_of_amount_zero (hz : e.amount = 0) : e.alloc v = (true, v) := by
  show allocPages v e.start vmmFlagsKernelAll e.amount = _
  rw [hz]
  rfl

theorem ProgramHeaderEntry.alloc_spec (h : LowHalfOk v) (hu : e.InUserHalf) (hpos : 0 < e.start)
    (ho : (e.alloc v).2.pmm.outOfLowFrames = false) :
    Filled v (e.alloc v).2 (e.start / 4096) e.amount ∨
      LowHalfOk (e.alloc v).2 ∧ view (e.alloc v).2 = view v ∧
        ∃ q, e.HasPage q ∧ view v q ≠ none := by
  rcases hu.range hpos with hz | ⟨b, hr, hle⟩
  · rw [alloc_of_amount_zero hz, hz]
    exact .inl (.refl h _)
  · rcases h.allocPages hr (by decide : vmmFlagsKernelAll.testBit 0 = true) hle ho with
      ⟨-, hfill⟩ | ⟨-, hok, hview, j, hj, hne⟩
    · exact .inl hfill
    · exact .inr ⟨hok, hview, _, ⟨j, hj, rfl⟩, hne⟩

/-- The flags `vmm_edit_pages` gives the pages of a segment. -/
def ProgramHeaderEntry.pageFlags (e : ProgramHeaderEntry) : ℕ :=
  if e.flags &&& 1 ≠ 0 then vmmFlagsUserCode else vmmFlagsUserRw

theorem ProgramHeaderEntry.pageFlags_present (e : ProgramHeaderEntry) :
    e.pageFlags.testBit 0 = true := by
  unfold pageFlags
  split_ifs
  · decide
  · decide

/-- **`vmm_edit_pages` for a segment** of the user half: its pages get their flags. -/
theorem ProgramHeaderEntry.edit_spec (h : LowHalfOk v) (hlow : (view v).Low) (hu : e.InUserHalf)
    (hpos : 0 < e.start) :
    LowHalfOk (e.edit v) ∧ KeepsLinks v (e.edit v) ∧
      (∀ q, ¬ e.HasPage q → view (e.edit v) q = view v q) ∧
      ∀ q, e.HasPage q → view (e.edit v) q =
        (view v q).map fun x => (x.1, (PageEntry.ofFlags e.pageFlags).flags) := by
  have hedit : e.edit v = (editLoop v e.start e.pageFlags e.amount 0 true).2 := rfl
  rw [hedit]
  unfold HasPage
  rcases hu.range hpos with hz | ⟨b, hr, hle⟩
  · rw [hz]
    refine ⟨h, .refl v, fun _ _ => rfl, ?_⟩
    rintro q ⟨j, hj, -⟩
    exact absurd hj (Nat.not_lt_zero j)
  · obtain ⟨hok, hk, hrest, hpages⟩ :=
      h.editLoop hr e.pageFlags_present ((Nat.zero_add _).le.trans hle) (fun _ _ => hlow _) true
    refine ⟨hok, hk, fun q hq => hrest q fun j hj e' => hq ⟨j, hj, e'⟩, ?_⟩
    rintro q ⟨j, hj, rfl⟩
    exact hpages j hj

theorem ProgramHeaderEntry.edit_fst (h : LowHalfOk v) (hlow : (view v).Low) (hu : e.InUserHalf)
    (hpos : 0 < e.start) (q : ℕ) : (view (e.edit v) q).map Prod.fst = (view v q).map Prod.fst := by
  obtain ⟨-, -, hrest, hpages⟩ := edit_spec h hlow hu hpos
  by_cases hq : e.HasPage q
  · rw [hpages q hq, Option.map_map]
    rfl
  · rw [hrest q hq]

theorem ProgramHeaderEntry.edit_isSome (h : LowHalfOk v) (hlow : (view v).Low) (hu : e.InUserHalf)
    (hpos : 0 < e.start) (q : ℕ) : (view (e.edit v) q).isSome = (view v q).isSome := by
  rw [← Option.isSome_map, edit_fst h hlow hu hpos, Option.isSome_map]

theorem ProgramHeaderEntry.edit_low (h : LowHalfOk v) (hlow : (view v).Low) (hu : e.InUserHalf)
    (hpos : 0 < e.start) : (view (e.edit v)).Low := by
  intro q b hb
  have hfst := edit_fst h hlow hu hpos q
  rw [hb, Option.map_some] at hfst
  obtain ⟨b', hb', e'⟩ := Option.map_eq_some_iff.1 hfst.symm
  rw [← e']
  exact hlow q b' hb'

/-- **Loading one segment.** It is mapped if it shares no page with those before it, and then its
addresses are its home. Otherwise the map stays as it was, and no address is. -/
theorem MapsSegments.step (h : MapsSegments mapped r.vmm) (hu : e.InUserHalf) (hpos : 0 < e.start)
    (ho : (loadSegment file r e).vmm.pmm.outOfLowFrames = false) :
    ((∀ q, e.HasPage q → ∀ e' ∈ mapped, ¬ e'.HasPage q) ∧
        MapsSegments (e :: mapped) (loadSegment file r e).vmm ∧ ∀ a, Home (e, r) a ↔ e.Covers a) ∨
      (∃ q, e.HasPage q ∧ ∃ e' ∈ mapped, e'.HasPage q) ∧
        MapsSegments mapped (loadSegment file r e).vmm ∧ ∀ a, ¬ Home (e, r) a := by
  obtain ⟨ho, -⟩ := loadSegment_outOfLowFrames ho
  rw [loadSegment_vmm]
  rcases ProgramHeaderEntry.alloc_spec h.ok hu hpos ho with hfill | ⟨hok, hview, q, hq, hne⟩
  · have hlow := hfill.view_low h.low
    obtain ⟨hok, -⟩ := ProgramHeaderEntry.edit_spec hfill.ok hlow hu hpos
    have hedit := ProgramHeaderEntry.edit_isSome hfill.ok hlow hu hpos
    have hfree : ∀ q, e.HasPage q → view r.vmm q = none := by
      rintro q ⟨j, hj, rfl⟩
      exact hfill.free j hj
    refine .inl ⟨fun q hq e' he' hq' => ?_,
      ⟨hok, ProgramHeaderEntry.edit_low hfill.ok hlow hu hpos, fun q => ?_⟩,
      fun a => ⟨Home.covers, fun ha => ?_⟩⟩
    · have := (h.pages q).2 ⟨e', he', hq'⟩
      rw [hfree q hq] at this
      cases this
    · rw [hedit]
      by_cases hq : e.HasPage q
      · refine iff_of_true ?_ ⟨e, List.mem_cons_self .., hq⟩
        obtain ⟨j, hj, rfl⟩ := hq
        exact hfill.bound j hj
      · rw [hfill.rest q fun j hj e' => hq ⟨j, hj, e'⟩, h.pages, List.exists_mem_cons_iff]
        exact (or_iff_right hq).symm
    · obtain ⟨hpage, hlt⟩ := ha.hasPage hu hpos
      refine ⟨ha, hlt, ?_, ?_⟩
      · rw [h.ok.vmmIsMapped hlt, hfree _ hpage]
        rfl
      · obtain ⟨j, hj, e'⟩ := hpage
        rw [hfill.ok.vmmIsMapped hlt, e']
        exact hfill.bound j hj
  · have hlow : (view (e.alloc r.vmm).2).Low := hview ▸ h.low
    obtain ⟨hok', -⟩ := ProgramHeaderEntry.edit_spec hok hlow hu hpos
    have hedit := ProgramHeaderEntry.edit_isSome hok hlow hu hpos
    refine .inr ⟨⟨q, hq, (h.pages q).1 (Option.isSome_iff_ne_none.2 hne)⟩,
      ⟨hok', ProgramHeaderEntry.edit_low hok hlow hu hpos, fun q => ?_⟩, fun a ha => ?_⟩
    · rw [hedit, hview, h.pages]
    · have hafter := ha.after
      rw [hok.vmmIsMapped ha.user, hview, ← h.ok.vmmIsMapped ha.user, ha.before] at hafter
      cases hafter

/-! ## Loading all of them -/

/-- The addresses of the segments loaded so far are those of the ones that were mapped. -/
def HomesOf (earlier : List (ProgramHeaderEntry × Ram)) (mapped : List ProgramHeaderEntry) : Prop :=
  ∀ a, (∃ z ∈ earlier, Home z a) ↔ ∃ e ∈ mapped, e.Covers a

theorem HomesOf.add (h : HomesOf earlier mapped) (he : ∀ a, Home (e, r) a ↔ e.Covers a) :
    HomesOf ((e, r) :: earlier) (e :: mapped) := by
  intro a
  rw [List.exists_mem_cons_iff, List.exists_mem_cons_iff, he, h]

theorem HomesOf.skip (h : HomesOf earlier mapped) (he : ∀ a, ¬ Home (e, r) a) :
    HomesOf ((e, r) :: earlier) mapped := by
  intro a
  rw [List.exists_mem_cons_iff, or_iff_right (he a), h]

theorem contained_of_fine (h : MapsSegments mapped r.vmm) (hh : HomesOf earlier mapped)
    (hpos : ∀ e ∈ es, 0 < e.start)
    (ho : (es.foldl (loadSegment file) r).vmm.pmm.outOfLowFrames = false)
    (hf : SegmentsFine mapped es) : Contained file earlier (segmentRun file r es) := by
  induction es generalizing mapped earlier r with
  | nil => trivial
  | cons e es ih =>
    obtain ⟨hu, hle, hf⟩ := hf
    have hpos' : ∀ e' ∈ es, 0 < e'.start := fun e' he' => hpos e' (List.mem_cons_of_mem _ he')
    have hstore : ∀ y ∈ e.stores file, e.Covers y.1 := fun y hy =>
      (ProgramHeaderEntry.mem_stores_of_le hu hle).1 ⟨y, hy, rfl⟩
    rcases h.step hu (hpos e (List.mem_cons_self ..)) (foldl_loadSegment_outOfLowFrames ho) with
      ⟨hdis, hmaps, hhome⟩ | ⟨⟨q, hq, e', he', hq'⟩, hmaps, hhome⟩
    · rcases hf with ⟨-, hf⟩ | ⟨⟨q, hq, e', he', hq'⟩, -⟩
      · refine ⟨fun y hy => ⟨(e, r), List.mem_cons_self .., (hhome _).2 (hstore y hy)⟩, ?_⟩
        exact ih hmaps (hh.add hhome) hpos' ho hf
      · exact absurd hq' (hdis q hq e' he')
    · rcases hf with ⟨hdis, -⟩ | ⟨-, hcov, hf⟩
      · exact absurd hq' (hdis q hq e' he')
      · refine ⟨fun y hy => ?_, ih hmaps (hh.skip hhome) hpos' ho hf⟩
        obtain ⟨z, hz, hza⟩ := (hh _).2 (hcov _ (hstore y hy))
        exact ⟨z, List.mem_cons_of_mem _ hz, hza⟩

theorem fine_of_contained (h : MapsSegments mapped r.vmm) (hh : HomesOf earlier mapped)
    (hpos : ∀ e ∈ es, 0 < e.start)
    (hne : ∀ e ∈ es, e.memorySize.toNat = 0 → e.fileSize.toNat = 0 → e.InUserHalf)
    (ho : (es.foldl (loadSegment file) r).vmm.pmm.outOfLowFrames = false)
    (hc : Contained file earlier (segmentRun file r es)) : SegmentsFine mapped es := by
  induction es generalizing mapped earlier r with
  | nil => trivial
  | cons e es ih =>
    obtain ⟨hstore, hc⟩ := hc
    have hpos' : ∀ e' ∈ es, 0 < e'.start := fun e' he' => hpos e' (List.mem_cons_of_mem _ he')
    have hne' : ∀ e' ∈ es, e'.memorySize.toNat = 0 → e'.fileSize.toNat = 0 → e'.InUserHalf :=
      fun e' he' => hne e' (List.mem_cons_of_mem _ he')
    obtain ⟨hu, hle⟩ : e.InUserHalf ∧ e.fileSize.toNat ≤ e.memorySize.toNat := by
      by_contra hbad
      obtain ⟨y, hy, hout⟩ := ProgramHeaderEntry.store_outside hbad (hne e (List.mem_cons_self ..))
      obtain ⟨z, -, hz⟩ := hstore y hy
      exact absurd hz.user (Nat.not_lt.2 hout)
    refine ⟨hu, hle, ?_⟩
    rcases h.step hu (hpos e (List.mem_cons_self ..)) (foldl_loadSegment_outOfLowFrames ho) with
      ⟨hdis, hmaps, hhome⟩ | ⟨hshare, hmaps, hhome⟩
    · exact .inl ⟨hdis, ih hmaps (hh.add hhome) hpos' hne' ho hc⟩
    · refine .inr ⟨hshare, fun a ha => ?_, ih hmaps (hh.skip hhome) hpos' hne' ho hc⟩
      obtain ⟨y, hy, rfl⟩ := (ProgramHeaderEntry.mem_stores_of_le hu hle).2 ha
      obtain ⟨z, hz, hza⟩ := hstore y hy
      rcases List.mem_cons.1 hz with rfl | hz
      · exact absurd hza (hhome _)
      · exact (hh _).1 ⟨z, hz, hza⟩

/-- **Every byte is stored where it should be** exactly if the segments are fine. For a new address
space, and as long as `pmm_alloc_frame` returns frames below `2 ^ 28` while the segments are loaded. The
converse is for files whose empty segments are in the user half: outside of it `vmm_alloc` maps a
page even for an empty one, in the tables of the kernel. -/
theorem load_contained {r : Ram} {v : Vmm} {kernel pml4 : ℕ} {file : Buf}
    (hd : ∀ f < r.vmm.pmm.totalFrames, r.vmm.hhdm f ≠ 0)
    (hn : newSpace r.vmm kernel = some (pml4, v))
    (ho : (loadSegments file { r with vmm := v }
      (List.range (Sys.programHeaderEntries file))).2.vmm.pmm.outOfLowFrames = false) :
    (SegmentsFine [] (loadedSegments file) →
        Contained file [] (segmentRun file { r with vmm := v } (loadedSegments file))) ∧
      ((∀ e ∈ loadedSegments file, e.memorySize.toNat = 0 → e.fileSize.toNat = 0 → e.InUserHalf) →
        Contained file [] (segmentRun file { r with vmm := v } (loadedSegments file)) →
          SegmentsFine [] (loadedSegments file)) := by
  rw [loadSegments_eq] at ho
  have hmaps : MapsSegments [] ({ r with vmm := v } : Ram).vmm :=
    mapsSegments_newSpace hd hn (foldl_loadSegment_outOfLowFrames ho)
  have hhomes : HomesOf [] [] := fun a => by simp
  have hpos : ∀ e ∈ loadedSegments file, 0 < e.start := fun _ he => start_pos_of_mem_segmentsOf he
  exact ⟨contained_of_fine hmaps hhomes hpos ho, fun hne => fine_of_contained hmaps hhomes hpos hne ho⟩

/-! ## A segment in the kernel's heap -/

/-- An ELF file with one segment: its first 8 bytes, to be loaded at the given address. -/
def oneSegmentImage (virtualAddress : ℕ) : Buf := fun a =>
  if 80 ≤ a ∧ a < 88 then UInt8.ofNat (virtualAddress / 256 ^ (a - 80))
  else if a = 0 then 0x7F else if a = 1 then 0x45 else if a = 2 then 0x4C else if a = 3 then 0x46
  else if a = 4 ∨ a = 16 then 2 else if a = 5 ∨ a = 20 ∨ a = 56 ∨ a = 64 then 1
  else if a = 18 then 62 else if a = 32 then 64 else if a = 54 then 56
  else if a = 96 ∨ a = 104 then 8 else 0

/-- A machine of 64 frames. The kernel PML4 in frame 1 has the first page of its heap in frame 5. -/
def heapMachine : Ram where
  vmm :=
    { pmm := .sixtyFour fun i => if i = 0 then 63 else 0
      frames := fun f i =>
        if f = 1 ∧ i = 402 then .make 7 2
        else if f = 2 ∧ i = 0 then .make 7 3
        else if f = 3 ∧ i = 0 then .make 7 4
        else if f = 4 ∧ i = 0 then .make 3 5
        else .ofFlags 0
      current := 1
      hhdmOffset := 0xffff800000000000 }
  bytes _ _ := 0

/-- The new address space on this machine. -/
def heapMachineSpace : Vmm := ((newSpace heapMachine.vmm 1).getD (0, heapMachine.vmm)).2

theorem newSpace_heapMachine : newSpace heapMachine.vmm 1 = some (6, heapMachineSpace) := by
  have h : (newSpace heapMachine.vmm 1).map Prod.fst = some 6 := by decide +kernel
  obtain ⟨x, hx, h₆⟩ := Option.map_eq_some_iff.1 h
  unfold heapMachineSpace
  rw [hx, Option.getD_some, ← h₆]

theorem loadedSegments_oneSegmentImage_user : loadedSegments (oneSegmentImage 0x2000000) =
    [⟨1, 0, 0, 0x2000000, 8, 8⟩] := by
  decide +kernel

theorem loadedSegments_oneSegmentImage_kernel : loadedSegments (oneSegmentImage 0xffffc90000000000) =
    [⟨1, 0, 0, 0xffffc90000000000, 8, 8⟩] := by
  decide +kernel

theorem load_contained_user_segment : Contained (oneSegmentImage 0x2000000) []
    (segmentRun (oneSegmentImage 0x2000000) { heapMachine with vmm := heapMachineSpace }
      (loadedSegments (oneSegmentImage 0x2000000))) := by
  refine (load_contained (by decide +kernel) newSpace_heapMachine (by decide +kernel)).1 ?_
  rw [loadedSegments_oneSegmentImage_user]
  exact ⟨.inl (by decide), by decide, .inl ⟨fun _ _ _ h => absurd h List.not_mem_nil, trivial⟩⟩

/-- **A segment at the start of the kernel's heap.** The header is accepted, `vmm_alloc` cannot map
the page, and the first byte of the file ends up in the frame of the kernel's heap. -/
theorem kernel_heap_overwritten :
    Sys.checkFileElf64 (oneSegmentImage 0xffffc90000000000) = none ∧
      translate heapMachine.vmm 1 0xffffc90000000000 = some 5 ∧
      (loadSegments (oneSegmentImage 0xffffc90000000000)
        { heapMachine with vmm := heapMachineSpace } [0]).2.bytes 5 0 = 0x7F ∧
      ¬ Contained (oneSegmentImage 0xffffc90000000000) []
        (segmentRun (oneSegmentImage 0xffffc90000000000) { heapMachine with vmm := heapMachineSpace }
          (loadedSegments (oneSegmentImage 0xffffc90000000000))) := by
  refine ⟨by decide +kernel, by decide +kernel, by decide +kernel, fun h => ?_⟩
  rw [loadedSegments_oneSegmentImage_kernel] at h
  obtain ⟨z, -, hz⟩ := h.1 (0xffffc90000000000, 0x7F) (by decide +kernel)
  exact absurd hz.user (by decide)

end EitanOS
