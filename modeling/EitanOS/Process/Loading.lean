import EitanOS.Process.Containment

/-!
# Loading with enough frames

A file whose segments are in the user half, away from the stack and the heap, and share no page is
loaded, if there are five free frames for each page.

* `MapsSegments.load`: the segments are mapped.
* `allocatorHeapInit_of_free`: so is the heap, and the allocator's data says it is not the kernel's.
* **`load_of_stocked`**: the load succeeds, and no allocation returns `null`.
-/

namespace EitanOS

open Bytes

variable {r : Ram} {v : Vmm} {file : Buf} {e : ProgramHeaderEntry} {es mapped : List ProgramHeaderEntry}
  {f k m : ℕ}

/-! ## The ranges of the stack and the heap -/

theorem userRange_stack : UserRange (stackStart.toNat - stackSize + 1) stackStart.toNat := by
  constructor
  · decide
  · decide

theorem userRange_data : UserRange (heapStart - 4096) (heapStart - 4096 + 4096 - 1) := by
  constructor
  · decide
  · decide

theorem userRange_heap : UserRange heapStart (heapStart + heapSize - 1) := by
  constructor
  · decide
  · decide

/-- The pages of a range of addresses. -/
def pagesOf (first last : ℕ) : Set ℕ := Set.Icc (first / 4096) (last / 4096)

/-- The pages of the stack. -/
def stackPages : Set ℕ := pagesOf (stackStart.toNat - stackSize + 1) stackStart.toNat

/-- The page of the allocator's data, below the heap. -/
def dataPage : ℕ := (heapStart - 4096) / 4096

theorem dataPage_eq : (heapStart - 4096) / 4096 = dataPage := rfl

/-- The pages of the heap. -/
def heapPages : Set ℕ := pagesOf heapStart (heapStart + heapSize - 1)

theorem mem_heapPages {q : ℕ} : q ∈ heapPages ↔ ∃ j < 256, q = heapStart / 4096 + j := by
  have hlast : (heapStart + heapSize - 1) / 4096 = heapStart / 4096 + 255 := by decide
  unfold heapPages pagesOf
  rw [hlast]
  constructor
  · rintro ⟨h₁, h₂⟩
    exact ⟨q - heapStart / 4096, by omega, by omega⟩
  · rintro ⟨j, hj, rfl⟩
    exact ⟨by omega, by omega⟩

theorem mem_stackPages {q : ℕ} :
    q ∈ stackPages ↔ ∃ j < 4, q = (stackStart.toNat - stackSize + 1) / 4096 + j := by
  have hlast : stackStart.toNat / 4096 = (stackStart.toNat - stackSize + 1) / 4096 + 3 := by decide
  unfold stackPages pagesOf
  rw [hlast]
  constructor
  · rintro ⟨h₁, h₂⟩
    exact ⟨q - (stackStart.toNat - stackSize + 1) / 4096, by omega, by omega⟩
  · rintro ⟨j, hj, rfl⟩
    exact ⟨by omega, by omega⟩

theorem dataPage_add {j : ℕ} (hj : j < 257) :
    dataPage + j ∈ insert dataPage (stackPages ∪ heapPages) := by
  cases j with
  | zero => exact .inl rfl
  | succ j =>
    have hnext : heapStart / 4096 = dataPage + 1 := by decide
    exact .inr (.inr (mem_heapPages.2 ⟨j, by omega, by omega⟩))

theorem dataPage_lt_stack : dataPage + 257 ≤ (stackStart.toNat - stackSize + 1) / 4096 := by decide

/-! ## The segments -/

theorem loadSegment_pmm : (loadSegment file r e).vmm.pmm = (e.alloc r.vmm).2.pmm := by
  rw [loadSegment_vmm]
  exact editLoop_pmm _ _ _ _ _ _

theorem MapsSegments.view_eq_none (h : MapsSegments mapped v) {q : ℕ}
    (hq : ∀ e ∈ mapped, ¬ e.HasPage q) : view v q = none := by
  have hnot : ¬ (view v q).isSome := fun hsome => by
    obtain ⟨e, he, hpage⟩ := (h.pages q).1 hsome
    exact hq e he hpage
  simpa using hnot

theorem MapsSegments.stocked (h : MapsSegments mapped r.vmm) (hu : e.InUserHalf) (hpos : 0 < e.start)
    (hdis : ∀ q, e.HasPage q → ∀ e' ∈ mapped, ¬ e'.HasPage q)
    (hs : Stocked r.vmm.pmm (m + 5 * e.amount)) : Stocked (loadSegment file r e).vmm.pmm m := by
  rw [loadSegment_pmm]
  rcases hu.range hpos with hz | ⟨b, hr, hle⟩
  · show Stocked (allocPages r.vmm e.start vmmFlagsKernelAll e.amount).2.pmm m
    rw [hz] at hs ⊢
    exact hs
  · have hfree : ∀ j < e.amount, view r.vmm (e.start / 4096 + j) = none := fun j hj =>
      h.view_eq_none (hdis _ ⟨j, hj, rfl⟩)
    exact (h.ok.allocPages_of_free hr (by decide : vmmFlagsKernelAll.testBit 0 = true) hle hs hfree).2.1

theorem sameSpace_loadSegments (file : Buf) (r : Ram) (es : List ProgramHeaderEntry) :
    SameSpace r.vmm (es.foldl (loadSegment file) r).vmm := by
  induction es generalizing r with
  | nil => exact .refl _
  | cons e es ih =>
    refine SameSpace.trans ?_ (ih _)
    rw [loadSegment_vmm]
    exact (sameSpace_vmmAlloc _ _ _ _).trans (sameSpace_editLoop _ _ _ _ _ _)

/-- **The segments are mapped**, and five frames for each page are enough. -/
theorem MapsSegments.load (h : MapsSegments mapped r.vmm) (hu : ∀ e ∈ es, e.InUserHalf)
    (hpos : ∀ e ∈ es, 0 < e.start)
    (hdis : ∀ e ∈ es, ∀ q, e.HasPage q → ∀ e' ∈ mapped, ¬ e'.HasPage q)
    (hpair : es.Pairwise fun e e' => ∀ q, e'.HasPage q → ¬ e.HasPage q)
    (hs : Stocked r.vmm.pmm (m + 5 * (es.map (·.amount)).sum)) :
    Stocked (es.foldl (loadSegment file) r).vmm.pmm m ∧
      MapsSegments (es.reverse ++ mapped) (es.foldl (loadSegment file) r).vmm := by
  induction es generalizing mapped r with
  | nil => exact ⟨hs, h⟩
  | cons e es ih =>
    obtain ⟨hfirst, hpair⟩ := List.pairwise_cons.1 hpair
    have hue := hu e (List.mem_cons_self ..)
    have hpose := hpos e (List.mem_cons_self ..)
    have hdise := hdis e (List.mem_cons_self ..)
    rw [List.map_cons, List.sum_cons] at hs
    have hs' : Stocked (loadSegment file r e).vmm.pmm (m + 5 * (es.map (·.amount)).sum) :=
      h.stocked hue hpose hdise (hs.mono (by omega))
    have hmaps : MapsSegments (e :: mapped) (loadSegment file r e).vmm := by
      rcases h.step hue hpose hs'.record with ⟨-, hmaps, -⟩ | ⟨⟨q, hq, e', he', hq'⟩, -⟩
      · exact hmaps
      · exact absurd hq' (hdise q hq e' he')
    rw [List.reverse_cons, List.append_assoc]
    refine ih hmaps (fun e' he' => hu e' (List.mem_cons_of_mem _ he'))
      (fun e' he' => hpos e' (List.mem_cons_of_mem _ he')) (fun e' he' q hq d hd => ?_) hpair hs'
    rcases List.mem_cons.1 hd with rfl | hd
    · exact hfirst e' he' q hq
    · exact hdis e' (List.mem_cons_of_mem _ he') q hq d hd

/-! ## The heap -/

theorem foldl_store_zero {xs : List (ℕ × UInt8)} {o : ℕ} (hz : ∀ x ∈ xs, x.1 % 4096 = o → x.2 = 0)
    (h : r.bytes f o = 0) : (xs.foldl Ram.store r).bytes f o = 0 := by
  induction xs generalizing r with
  | nil => exact h
  | cons x xs ih =>
    refine ih (fun y hy => hz y (List.mem_cons_of_mem _ hy)) ?_
    have hx := hz x (List.mem_cons_self ..)
    unfold Ram.store
    cases translate r.vmm r.vmm.current x.1 with
    | none => exact h
    | some g =>
      dsimp only
      by_cases hg : f = g
      · subst hg
        rw [Function.update_self]
        by_cases ho : o = x.1 % 4096
        · rw [ho, Function.update_self]
          exact hx ho.symm
        · rwa [Function.update_of_ne ho]
      · rwa [Function.update_of_ne hg]

theorem heap_stores_zero : ∀ x ∈ wordStores (heapStart - 4096) heapStart ++
    wordStores heapStart heapSize ++ wordStores (heapStart + 8) 0 ++
      wordStores (heapStart - 4096 + 16) heapSize, x.1 % 4096 = 8 → x.2 = 0 := by
  decide +kernel

theorem allocatorHeapInit_eq {v₁ v₂ : Vmm}
    (e₁ : vmmAlloc r.vmm (heapStart - 4096) (heapStart - 4096 + 4096 - 1) vmmFlagsKernelRw = (true, v₁))
    (e₂ : vmmAlloc v₁ heapStart (heapStart + heapSize - 1) vmmFlagsUserRw = (true, v₂)) :
    (allocatorHeapInit r heapSize).2 = (wordStores (heapStart - 4096) heapStart ++
      wordStores heapStart heapSize ++ wordStores (heapStart + 8) 0 ++
        wordStores (heapStart - 4096 + 16) heapSize).foldl Ram.store
          (Ram.store { r with vmm := v₂ } (heapStart - 4096 + 8, 0)) := by
  unfold allocatorHeapInit
  dsimp only
  rw [e₁]
  dsimp only
  rw [if_pos rfl, e₂]
  simp only [if_true, List.append_assoc, List.foldl_append, List.foldl_cons, List.foldl_nil]

/-- **`allocator_heap_init` makes a heap of the process** if its pages are free. -/
theorem allocatorHeapInit_of_free {m : ℕ} (h : LowHalfOk r.vmm) (hs : Stocked r.vmm.pmm (m + 1285))
    (hfree : ∀ j < 257, view r.vmm ((heapStart - 4096) / 4096 + j) = none) :
    Stocked (allocatorHeapInit r heapSize).2.vmm.pmm m ∧
      ∃ f, translate (allocatorHeapInit r heapSize).2.vmm r.vmm.current (heapStart - 4096) = some f ∧
        (allocatorHeapInit r heapSize).2.bytes f 8 = 0 := by
  have hone : pageAmount (heapStart - 4096) (heapStart - 4096 + 4096 - 1) = 1 := by decide
  have hmany : pageAmount heapStart (heapStart + heapSize - 1) = 256 := by decide
  have hnext : heapStart / 4096 = (heapStart - 4096) / 4096 + 1 := by decide
  -- the page of the allocator's data
  have h₁ := h.vmmAlloc_of_free (m := m + 1280) userRange_data (by decide : vmmFlagsKernelRw.testBit 0 = true)
    (by rwa [hone]) (fun j hj => hfree j (by omega))
  have hspace₁ := sameSpace_vmmAlloc r.vmm (heapStart - 4096) (heapStart - 4096 + 4096 - 1)
    vmmFlagsKernelRw
  generalize e₁ : vmmAlloc r.vmm (heapStart - 4096) (heapStart - 4096 + 4096 - 1) vmmFlagsKernelRw = x
    at h₁ hspace₁
  obtain ⟨ok, v₁⟩ := x
  obtain ⟨rfl, hs₁, hfill₁⟩ := h₁
  rw [hone] at hfill₁
  -- the pages of the heap
  have h₂ := hfill₁.ok.vmmAlloc_of_free (m := m) userRange_heap (by decide : vmmFlagsUserRw.testBit 0 = true)
    (by rwa [hmany]) (fun j hj => by
      rw [hnext, hfill₁.rest _ fun i hi => by omega, Nat.add_assoc]
      exact hfree (1 + j) (by omega))
  have hspace₂ := sameSpace_vmmAlloc v₁ heapStart (heapStart + heapSize - 1) vmmFlagsUserRw
  generalize e₂ : vmmAlloc v₁ heapStart (heapStart + heapSize - 1) vmmFlagsUserRw = x at h₂ hspace₂
  obtain ⟨ok, v₂⟩ := x
  obtain ⟨rfl, hs₂, hfill₂⟩ := h₂
  have hvmm : (Ram.store { r with vmm := v₂ } (heapStart - 4096 + 8, 0)).vmm = v₂ :=
    foldl_store_vmm [_] _
  have hbound : (view v₂ ((heapStart - 4096) / 4096)).isSome := by
    rw [hfill₂.rest _ fun j _ => by omega]
    exact hfill₁.bound 0 Nat.one_pos
  obtain ⟨x, hx⟩ := Option.isSome_iff_exists.1 hbound
  have hcur : v₂.current = r.vmm.current := hspace₂.current.trans hspace₁.current
  have htrans : ∀ o < 4096, translate v₂ r.vmm.current (heapStart - 4096 + o) = some x.1 := by
    intro o ho
    have hlt : heapStart - 4096 + 4096 < 2 ^ 47 := by decide
    have hpage : (heapStart - 4096 + o) / 4096 = (heapStart - 4096) / 4096 := by
      have : (heapStart - 4096) % 4096 = 0 := by decide
      omega
    rw [← hcur, translate_current (by omega), hpage, hx]
    rfl
  rw [allocatorHeapInit_eq e₁ e₂, foldl_store_vmm, hvmm]
  refine ⟨hs₂, x.1, htrans 0 (by decide), foldl_store_zero heap_stores_zero ?_⟩
  unfold Ram.store
  dsimp only
  rw [hcur, htrans 8 (by decide)]
  dsimp only
  rw [Function.update_self, show (heapStart - 4096 + 8) % 4096 = 8 by decide, Function.update_self]

/-! ## The load -/

theorem newSpace_of_stocked (hd : ∀ f < v.pmm.totalFrames, v.hhdm f ≠ 0) (hs : Stocked v.pmm (m + 1)) :
    ∃ p v', newSpace v k = some (p, v') ∧ Stocked v'.pmm m := by
  have halloc := hs.alloc
  obtain ⟨-, hlt, -, -⟩ := pmmAllocFrame_spec halloc.record
  obtain ⟨p, v', -, hn⟩ := newSpace_isSome hd (Nat.zero_lt_of_lt hlt) k
  refine ⟨p, v', hn, ?_⟩
  rw [(newSpace_spec hn).2.1]
  exact halloc

theorem programLoaderLoadElf64_eq {p : ℕ} {r₁ : Ram} (hcheck : Sys.checkFileElf64 file = none)
    (hn : newSpace r.vmm k = some (p, v))
    (hsegs : loadSegments file { r with vmm := v } (List.range (Sys.programHeaderEntries file)) =
      (true, r₁)) {v₂ : Vmm} {r₃ : Ram}
    (hv₂ : (vmmAlloc r₁.vmm (stackStart.toNat - stackSize + 1) stackStart.toNat vmmFlagsUserRw).2 = v₂)
    (hr₃ : (allocatorHeapInit { r₁ with vmm := v₂ } heapSize).2 = r₃) :
    programLoaderLoadElf64 r k file = some (p, { r₃ with vmm := vmmSetPML4 r₃.vmm k }) := by
  unfold programLoaderLoadElf64
  rw [if_pos hcheck, hn, Option.bind_some]
  dsimp only
  rw [hsegs]
  dsimp only
  rw [if_pos rfl, hv₂, hr₃]

/-- **A load with enough frames succeeds.** No allocation returns `null`, and the process has a heap
that is not the kernel's. -/
theorem load_of_stocked (hd : ∀ f < r.vmm.pmm.totalFrames, r.vmm.hhdm f ≠ 0)
    (hcheck : Sys.checkFileElf64 file = none)
    (hbounds : ∀ r, (loadSegments file r (List.range (Sys.programHeaderEntries file))).1 = true)
    (hu : ∀ e ∈ loadedSegments file, e.InUserHalf)
    (hpair : (loadedSegments file).Pairwise fun e e' => ∀ q, e'.HasPage q → ¬ e.HasPage q)
    (haway : ∀ e ∈ loadedSegments file, ∀ q, e.HasPage q →
      q ∉ insert dataPage (stackPages ∪ heapPages))
    (hs : Stocked r.vmm.pmm (5 * ((loadedSegments file).map (·.amount)).sum + 1306)) :
    ∃ p r', programLoaderLoadElf64 r k file = some (p, r') ∧ r'.vmm.pmm.outOfLowFrames = false ∧
      ∃ f, translate r'.vmm p (heapStart - 4096) = some f ∧ r'.bytes f 8 = 0 := by
  obtain ⟨p, v, hn, hs₀⟩ := newSpace_of_stocked (k := k) hd hs
  have hmaps : MapsSegments [] ({ r with vmm := v } : Ram).vmm :=
    mapsSegments_newSpace hd hn hs₀.record
  have hload : Stocked ((loadedSegments file).foldl (loadSegment file) { r with vmm := v }).vmm.pmm
      1305 ∧ _ :=
    hmaps.load hu (fun _ he => start_pos_of_mem_segmentsOf he)
      (fun _ _ _ _ _ h => absurd h List.not_mem_nil) hpair (by rwa [Nat.add_comm])
  have hcur := (sameSpace_loadSegments file { r with vmm := v } (loadedSegments file)).current
  have hsegs : loadSegments file { r with vmm := v } (List.range (Sys.programHeaderEntries file)) =
      (true, (loadedSegments file).foldl (loadSegment file) { r with vmm := v }) :=
    Prod.ext (hbounds _) loadSegments_eq
  generalize (loadedSegments file).foldl (loadSegment file) { r with vmm := v } = r₁
    at hload hcur hsegs
  obtain ⟨hs₁, hmaps₁⟩ := hload
  have hfree : ∀ q ∈ insert dataPage (stackPages ∪ heapPages), view r₁.vmm q = none := by
    intro q hq
    refine hmaps₁.view_eq_none fun e he hpage => ?_
    rw [List.append_nil, List.mem_reverse] at he
    exact haway e he q hpage hq
  -- the stack
  have hfour : pageAmount (stackStart.toNat - stackSize + 1) stackStart.toNat = 4 := by decide
  have h₂ := hmaps₁.ok.vmmAlloc_of_free (m := 1285) userRange_stack (by decide : vmmFlagsUserRw.testBit 0 = true)
    (by rwa [hfour]) fun j hj =>
      hfree _ (.inr (.inl (mem_stackPages.2 ⟨j, hfour ▸ hj, rfl⟩)))
  have hspace := sameSpace_vmmAlloc r₁.vmm (stackStart.toNat - stackSize + 1) stackStart.toNat
    vmmFlagsUserRw
  obtain ⟨v₂, hv₂⟩ : ∃ v₂, (vmmAlloc r₁.vmm (stackStart.toNat - stackSize + 1) stackStart.toNat
    vmmFlagsUserRw).2 = v₂ := ⟨_, rfl⟩
  rw [hv₂] at h₂ hspace
  obtain ⟨-, hs₂, hfill⟩ := h₂
  -- the heap
  obtain ⟨hs₃, f, htrans, hbyte⟩ := allocatorHeapInit_of_free (r := { r₁ with vmm := v₂ }) (m := 0)
    hfill.ok hs₂ fun j hj => by
      have htop := dataPage_lt_stack
      show view v₂ (dataPage + j) = none
      rw [hfill.rest _ fun i hi => by omega]
      exact hfree _ (dataPage_add hj)
  have hp : v₂.current = p := hspace.current.trans (hcur.trans (newSpace_spec hn).2.2.2.1)
  rw [show ({ r₁ with vmm := v₂ } : Ram).vmm.current = p from hp] at htrans
  obtain ⟨r₃, hr₃⟩ : ∃ r₃, (allocatorHeapInit { r₁ with vmm := v₂ } heapSize).2 = r₃ := ⟨_, rfl⟩
  rw [hr₃] at hs₃ htrans hbyte
  exact ⟨p, { r₃ with vmm := vmmSetPML4 r₃.vmm k },
    programLoaderLoadElf64_eq hcheck hn hsegs hv₂ hr₃, hs₃.record, f, htrans, hbyte⟩

end EitanOS
