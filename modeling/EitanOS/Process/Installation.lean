import EitanOS.Process.AddressSpace
import EitanOS.Process.Conservation

/-!
# A well-formed program is loaded faithfully

`program_loader_load_elf64` as a whole, for files whose segments are in the user half, share no page
and stay away from what the loader maps itself.

* `WellFormedElf`, `Faithful`: such a file, and what the process finds in its address space.
* `Present`: a segment is in memory. **`loadSegment_present`**: loading it puts it there.
* `allocatorHeapInit_installs`: the heap.
* **`load_faithful`**: the load returns, the address space is as the file says, and one process is
  added to the ring.
* `data_page_taken`: a segment on the page of the allocator's data is loaded, and there is no heap.
-/

namespace EitanOS

open Bytes

/-! ## Files and address spaces -/

/-- The PT_LOAD entries of a file. -/
def ptLoads (file : Buf) : List ProgramHeaderEntry :=
  ((List.range (Sys.programHeaderEntries file)).map (programHeaderEntry file)).filter
    (·.segmentType = 1)

namespace ProgramHeaderEntry

variable (e : ProgramHeaderEntry)

/-- A page with an address of the segment on it. -/
def Occupies (q : ℕ) : Prop := ∃ a, e.Covers a ∧ a / 4096 = q

/-- The flag that makes a segment code. -/
def Executable : Prop := e.flags &&& 1 ≠ 0

/-- Byte `k` of the segment: one of the file, or zero after its part of the file. -/
def byte (file : Buf) (k : ℕ) : UInt8 :=
  if k < e.fileSize.toNat then file ((e.dataOffset.toNat + k) % 2 ^ 64) else 0

end ProgramHeaderEntry

/-- **A well-formed file** whose segments do not occupy the given pages. -/
structure WellFormedElf (avoid : Set ℕ) (file : Buf) : Prop where
  header : Sys.checkFileElf64 file = none
  bounds : ∀ e ∈ ptLoads file, Sys.processMemoryStart ≤ e.start
  user : ∀ e ∈ ptLoads file, e.start + e.memorySize.toNat ≤ 2 ^ 47
  size : ∀ e ∈ ptLoads file, 0 < e.memorySize.toNat ∧ e.fileSize.toNat ≤ e.memorySize.toNat
  disjoint : (ptLoads file).Pairwise fun e e' => ∀ q, e'.Occupies q → ¬ e.Occupies q
  away : ∀ e ∈ ptLoads file, ∀ q, e.Occupies q → q ∉ avoid

/-- **The address space of a PML4 is as the file says.** Code is not writable, everything else of the
process is not executable, and nothing else is mapped in the user half. -/
structure Faithful (file : Buf) (pml4 : ℕ) (r : Ram) : Prop where
  bytes : ∀ e ∈ ptLoads file, ∀ k < e.memorySize.toNat,
    r.read pml4 (e.start + k) = some (e.byte file k)
  code : ∀ e ∈ ptLoads file, e.Executable → ∀ a < 2 ^ 47, e.Occupies (a / 4096) →
    rights r.vmm pml4 a = some ⟨true, false, true⟩
  data : ∀ e ∈ ptLoads file, ¬ e.Executable → ∀ a < 2 ^ 47, e.Occupies (a / 4096) →
    rights r.vmm pml4 a = some ⟨true, true, false⟩
  stackAndHeap : ∀ a < 2 ^ 47, a / 4096 ∈ stackPages ∪ heapPages →
    rights r.vmm pml4 a = some ⟨true, true, false⟩
  mapped : ∀ a < 2 ^ 47, (translate r.vmm pml4 a).isSome ↔
    (∃ e ∈ ptLoads file, e.Occupies (a / 4096)) ∨ a / 4096 ∈ insert dataPage (stackPages ∪ heapPages)

/-- `program_loader_load_elf64`, where `malloc` returns `p` for the process: the pid, the memory and
the scheduler's data. `none` is `return false`. -/
def loadProcess (r : Ram) (s : Sched) (p : ℕ) (file : Buf) : Option (UInt32 × Ram × Sched) :=
  (programLoaderLoadElf64 r s.kernelPML4 file).map fun (pml4, r) =>
    let (s, pid) := addProcess (s.loadPML4 s.kernelPML4) p (le64 file 24) pml4 false
    (pid, r, s)

/-- There are enough frames: while the file is loaded, every `pmm_alloc_frame` returns one, below
`2 ^ 28`. -/
def EnoughFrames (r : Ram) (kernel : ℕ) (file : Buf) : Prop :=
  ∀ x, programLoaderLoadElf64 r kernel file = some x → x.2.vmm.pmm.outOfLowFrames = false

/-- One process was added to the ring, with its entry point and address space. -/
structure AddsProcess (s s' : Sched) (l : List ℕ) (p : ℕ) (pid : UInt32) (entry : UInt64) (pml4 : ℕ) :
    Prop where
  shape : RingShape s' (p :: l)
  pid_eq : s'.pids p = pid
  rip : (s'.procs p).regs.rip = entry
  pml4_eq : (s'.procs p).pml4 = pml4
  others : ∀ q, q ≠ p → (s'.procs q).pid = (s.procs q).pid ∧ (s'.procs q).regs = (s.procs q).regs ∧
    (s'.procs q).pml4 = (s.procs q).pml4

variable {v : Vmm} {r r' : Ram} {file : Buf} {e : ProgramHeaderEntry}
  {es mapped : List ProgramHeaderEntry} {avoid : Set ℕ} {a k q : ℕ}

/-! ## The segments -/

namespace ProgramHeaderEntry

theorem pageFlags_code (e : ProgramHeaderEntry) (h : e.Executable) : e.pageFlags = vmmFlagsUserCode :=
  if_pos h

theorem pageFlags_data (e : ProgramHeaderEntry) (h : ¬ e.Executable) : e.pageFlags = vmmFlagsUserRw :=
  if_neg h

theorem hasPage_iff (hu : e.start + e.memorySize.toNat ≤ 2 ^ 47) (hpos : 0 < e.start)
    (hsize : 0 < e.memorySize.toNat) : e.HasPage q ↔ e.Occupies q := by
  constructor
  · rintro ⟨j, hj, rfl⟩
    have hl := e.last_eq
    unfold amount pageAmount at hj
    rw [if_pos (by omega)] at hj
    -- the first address of the segment on the page
    refine ⟨max e.start ((e.start / 4096 + j) * 4096), ⟨le_max_left _ _, ?_⟩, ?_⟩
    · omega
    · omega
  · rintro ⟨a, ha, rfl⟩
    exact (ha.hasPage (.inl hu) hpos).1

theorem mem_stores_iff (hu : e.start + e.memorySize.toNat ≤ 2 ^ 47)
    (hle : e.fileSize.toNat ≤ e.memorySize.toNat) {x : ℕ × UInt8} :
    x ∈ e.stores file ↔ ∃ k < e.memorySize.toNat, x = (e.start + k, e.byte file k) := by
  have hm := e.memorySize.toNat_lt
  have hsub := e.sub_toNat
  unfold stores memsetStores memcpyStores byte
  simp only [List.mem_append, List.mem_map, List.mem_range]
  constructor
  · rintro (⟨k, hk, rfl⟩ | ⟨k, hk, rfl⟩)
    · refine ⟨k, by omega, ?_⟩
      rw [if_pos hk, Nat.mod_eq_of_lt (by omega)]
    · refine ⟨e.fileSize.toNat + k, by omega, ?_⟩
      rw [if_neg (by omega), Nat.mod_eq_of_lt (by omega), Nat.mod_eq_of_lt (by omega), Nat.add_assoc]
  · rintro ⟨k, hk, rfl⟩
    by_cases hlt : k < e.fileSize.toNat
    · refine .inl ⟨k, hlt, ?_⟩
      rw [if_pos hlt, Nat.mod_eq_of_lt (by omega)]
    · refine .inr ⟨k - e.fileSize.toNat, by omega, ?_⟩
      rw [if_neg hlt, Nat.mod_eq_of_lt (by omega), Nat.mod_eq_of_lt (by omega)]
      congr 1
      omega

theorem alloc_allocated (h : LowHalfOk v) (hu : e.InUserHalf) (hpos : 0 < e.start)
    (ho : (e.alloc v).2.pmm.outOfLowFrames = false) (hfree : ∀ q, e.HasPage q → view v q = none) :
    Allocated v (e.alloc v).2 (e.start / 4096) e.amount vmmFlagsKernelAll := by
  rcases hu.range hpos with hz | ⟨b, hr, hle⟩
  · rw [alloc_of_amount_zero hz, hz]
    exact ⟨.refl h _, .refl v, fun _ hj => absurd hj (Nat.not_lt_zero _)⟩
  · exact (h.allocated hr (by decide : vmmFlagsKernelAll.testBit 0 = true) hle ho fun j hj =>
      hfree _ ⟨j, hj, rfl⟩).2

end ProgramHeaderEntry

/-- **A segment is in memory**: its pages have their flags, its bytes are those of the file. -/
structure Present (file : Buf) (e : ProgramHeaderEntry) (r : Ram) : Prop where
  pages : ∀ q, e.HasPage q → ∃ f, view r.vmm q = some (f, (PageEntry.ofFlags e.pageFlags).flags)
  bytes : ∀ k < e.memorySize.toNat, r.get (e.start + k) = some (e.byte file k)

theorem Present.mono (h : Present file e r) (hx : Extends r r')
    (hu : e.start + e.memorySize.toNat ≤ 2 ^ 47) (hpos : 0 < e.start) : Present file e r' := by
  refine ⟨fun q hq => ?_, fun k hk => ?_⟩
  · obtain ⟨f, hf⟩ := h.pages q hq
    exact ⟨f, hx.view_eq q _ hf⟩
  · have hcov : e.Covers (e.start + k) := ⟨Nat.le_add_right _ _, by omega⟩
    obtain ⟨hpage, hlt⟩ := hcov.hasPage (.inl hu) hpos
    obtain ⟨f, hf⟩ := h.pages _ hpage
    rw [hx.get_eq _ hlt (by rw [hf]; rfl), h.bytes k hk]

theorem get_of_frames (ha : a < 2 ^ 47)
    (h : (view v (a / 4096)).map Prod.fst = (view r.vmm (a / 4096)).map Prod.fst) :
    ({ r with vmm := v } : Ram).get a = r.get a := by
  have hmap : ∀ o : Option Binding, (o.map fun b => r.bytes b.1 (a % 4096)) =
      (o.map Prod.fst).map fun f => r.bytes f (a % 4096) := fun o => by rw [Option.map_map]; rfl
  rw [get_eq ha, get_eq ha, hmap, hmap]
  exact congrArg _ h

/-- **Loading a segment puts it into memory** and keeps what was there. -/
theorem loadSegment_present (h : LowHalfOk r.vmm) (hlow : (view r.vmm).Low)
    (hu : e.start + e.memorySize.toNat ≤ 2 ^ 47) (hpos : 0 < e.start) (hle : e.fileSize.toNat ≤ e.memorySize.toNat)
    (hfree : ∀ q, e.HasPage q → view r.vmm q = none)
    (ho : (loadSegment file r e).vmm.pmm.outOfLowFrames = false) :
    Extends r (loadSegment file r e) ∧ Present file e (loadSegment file r e) := by
  have huser : e.InUserHalf := .inl hu
  have halloc := ProgramHeaderEntry.alloc_allocated h huser hpos (loadSegment_outOfLowFrames ho).1 hfree
  have hspace := sameSpace_vmmAlloc r.vmm e.start e.last vmmFlagsKernelAll
  change SameSpace r.vmm (e.alloc r.vmm).2 at hspace
  have hload : loadSegment file r e = { (e.stores file).foldl Ram.store
      { r with vmm := (e.alloc r.vmm).2 } with vmm := e.edit (e.alloc r.vmm).2 } := by
    unfold loadSegment
    dsimp only
    rw [foldl_store_vmm]
  rw [hload]
  generalize (e.alloc r.vmm).2 = v₁ at halloc hspace ⊢
  have hcovers : ∀ x ∈ e.stores file, e.Covers x.1 := fun x hx =>
    (ProgramHeaderEntry.mem_stores_of_le huser hle).1 ⟨x, hx, rfl⟩
  have hstores : StoresMapped v₁ (e.stores file) := fun x hx => by
    obtain ⟨⟨j, hj, hq⟩, hlt⟩ := (hcovers x hx).hasPage huser hpos
    exact ⟨hlt, hq ▸ halloc.bound j hj⟩
  have hcopied : Extends r ((e.stores file).foldl Ram.store { r with vmm := v₁ }) :=
    (halloc.extends hspace.current).stores halloc.ok hstores fun x hx =>
      hfree _ ((hcovers x hx).hasPage huser hpos).1
  obtain ⟨-, hkeep, hrest, hpages⟩ := ProgramHeaderEntry.edit_spec halloc.ok
    (halloc.view_low hlow) huser hpos
  have hvmm : ((e.stores file).foldl Ram.store { r with vmm := v₁ }).vmm = v₁ := foldl_store_vmm _ _
  refine ⟨hcopied.setVmm ?_ (hvmm.symm ▸ hkeep) fun q hq => ?_, fun q hq => ?_, fun k hk => ?_⟩
  · rw [hvmm]
    exact (sameSpace_editLoop _ _ _ _ _ _).current
  · rw [hvmm]
    refine hrest q fun hpage => ?_
    rw [hfree q hpage] at hq
    cases hq
  · obtain ⟨j, hj, rfl⟩ := hq
    obtain ⟨b, hb⟩ := Option.isSome_iff_exists.1 (halloc.bound j hj)
    refine ⟨b.1, ?_⟩
    show view (e.edit v₁) _ = _
    rw [hpages _ ⟨j, hj, rfl⟩, hb]
    rfl
  · have hcov : e.Covers (e.start + k) := ⟨Nat.le_add_right _ _, by omega⟩
    obtain ⟨hpage, hlt⟩ := hcov.hasPage huser hpos
    rw [get_of_frames hlt (by rw [hvmm, hpages _ hpage, Option.map_map]; rfl)]
    refine LowHalfOk.get_stores halloc.ok hstores hlt (fun x hx hxa => ?_) (.inl ?_)
    · obtain ⟨k', -, rfl⟩ := (ProgramHeaderEntry.mem_stores_iff hu hle).1 hx
      rw [Nat.add_left_cancel hxa]
    · exact ⟨_, (ProgramHeaderEntry.mem_stores_iff hu hle).2 ⟨k, hk, rfl⟩, rfl⟩

/-- **Loading the segments puts all of them into memory.** -/
theorem loadSegments_present (h : MapsSegments mapped r.vmm)
    (hu : ∀ e ∈ es, e.start + e.memorySize.toNat ≤ 2 ^ 47) (hpos : ∀ e ∈ es, 0 < e.start)
    (hle : ∀ e ∈ es, e.fileSize.toNat ≤ e.memorySize.toNat)
    (hdis : ∀ e ∈ es, ∀ q, e.HasPage q → ∀ e' ∈ mapped, ¬ e'.HasPage q)
    (hpair : es.Pairwise fun e e' => ∀ q, e'.HasPage q → ¬ e.HasPage q)
    (ho : (es.foldl (loadSegment file) r).vmm.pmm.outOfLowFrames = false) :
    Extends r (es.foldl (loadSegment file) r) ∧
      MapsSegments (es.reverse ++ mapped) (es.foldl (loadSegment file) r).vmm ∧
      ∀ e ∈ es, Present file e (es.foldl (loadSegment file) r) := by
  induction es generalizing mapped r with
  | nil => exact ⟨.refl r, h, fun _ he => absurd he List.not_mem_nil⟩
  | cons e es ih =>
    obtain ⟨hfirst, hpair⟩ := List.pairwise_cons.1 hpair
    rw [List.forall_mem_cons] at hu hpos hle hdis
    have ho₁ := foldl_loadSegment_outOfLowFrames (r := loadSegment file r e) ho
    obtain ⟨hext, hpres⟩ := loadSegment_present h.ok h.low hu.1 hpos.1 hle.1
      (fun q hq => h.view_eq_none (hdis.1 q hq)) ho₁
    have hmaps : MapsSegments (e :: mapped) (loadSegment file r e).vmm := by
      rcases h.step (.inl hu.1) hpos.1 ho₁ with ⟨-, hmaps, -⟩ | ⟨⟨q, hq, e', he', hq'⟩, -⟩
      · exact hmaps
      · exact absurd hq' (hdis.1 q hq e' he')
    obtain ⟨hext', hmaps', hpres'⟩ := ih hmaps hu.2 hpos.2 hle.2 (fun e' he' q hq => by
      rw [List.forall_mem_cons]
      exact ⟨hfirst e' he' q hq, hdis.2 e' he' q hq⟩) hpair ho
    rw [List.reverse_cons, List.append_assoc, List.foldl_cons, List.forall_mem_cons]
    exact ⟨hext.trans hext', hmaps', hpres.mono hext' hu.1 hpos.1, hpres'⟩

/-! ## The heap -/

theorem heap_stores_pages : ∀ x ∈ (heapStart - 4096 + 8, (0 : UInt8)) ::
    (wordStores (heapStart - 4096) heapStart ++ wordStores heapStart heapSize ++
      wordStores (heapStart + 8) 0 ++ wordStores (heapStart - 4096 + 16) heapSize),
    x.1 < 2 ^ 47 ∧ (x.1 / 4096 = dataPage ∨ x.1 / 4096 = heapStart / 4096) := by
  decide +kernel

theorem allocatorHeapInit_outOfLowFrames_eq {v₁ v₂ : Vmm} {b : Bool}
    (e₁ : vmmAlloc r.vmm (heapStart - 4096) (heapStart - 4096 + 4096 - 1) vmmFlagsKernelRw = (true, v₁))
    (e₂ : vmmAlloc v₁ heapStart (heapStart + heapSize - 1) vmmFlagsUserRw = (b, v₂)) :
    (allocatorHeapInit r heapSize).2.vmm.pmm.outOfLowFrames = v₂.pmm.outOfLowFrames := by
  unfold allocatorHeapInit
  dsimp only
  rw [e₁]
  dsimp only
  rw [if_pos rfl, e₂]
  cases b with
  | true =>
    dsimp only
    rw [if_pos rfl, foldl_store_vmm]
  | false => exact vmmUnmapPage_outOfLowFrames _ _

/-- **`allocator_heap_init` maps the heap** and the page of its data, and keeps what was there. -/
theorem allocatorHeapInit_installs (h : LowHalfOk r.vmm)
    (ho : (allocatorHeapInit r heapSize).2.vmm.pmm.outOfLowFrames = false)
    (hfree : ∀ j < 257, view r.vmm (dataPage + j) = none) :
    Extends r (allocatorHeapInit r heapSize).2 ∧
      (∀ q ∈ heapPages, ∃ f, view (allocatorHeapInit r heapSize).2.vmm q =
        some (f, (PageEntry.ofFlags vmmFlagsUserRw).flags)) ∧
      ∀ q, (view (allocatorHeapInit r heapSize).2.vmm q).isSome ↔
        (view r.vmm q).isSome ∨ q = dataPage ∨ q ∈ heapPages := by
  have hone : pageAmount (heapStart - 4096) (heapStart - 4096 + 4096 - 1) = 1 := by decide
  have hmany : pageAmount heapStart (heapStart + heapSize - 1) = 256 := by decide
  have hnext : heapStart / 4096 = dataPage + 1 := by decide
  -- the page of the allocator's data
  have ho₁ : (vmmAlloc r.vmm (heapStart - 4096) (heapStart - 4096 + 4096 - 1)
      vmmFlagsKernelRw).2.pmm.outOfLowFrames = false := by
    rcases allocatorHeapInit_vmm r heapSize rfl rfl with e | e | e
    · rw [e] at ho
      exact ho
    · rw [e] at ho
      exact allocPages_outOfLowFrames ho
    · rw [e, vmmUnmapPage_outOfLowFrames] at ho
      exact allocPages_outOfLowFrames ho
  have h₁ := h.allocated userRange_data (by decide : vmmFlagsKernelRw.testBit 0 = true) le_rfl ho₁
    fun j hj => hfree j (by omega)
  change (vmmAlloc r.vmm _ _ _).1 = true ∧ Allocated _ (vmmAlloc r.vmm _ _ _).2 _ _ _ at h₁
  have hspace₁ := sameSpace_vmmAlloc r.vmm (heapStart - 4096) (heapStart - 4096 + 4096 - 1)
    vmmFlagsKernelRw
  generalize e₁ : vmmAlloc r.vmm (heapStart - 4096) (heapStart - 4096 + 4096 - 1) vmmFlagsKernelRw = x
    at h₁ hspace₁
  obtain ⟨b, v₁⟩ := x
  obtain ⟨rfl, h₁⟩ := h₁
  rw [hone, dataPage_eq] at h₁
  -- the pages of the heap
  have ho₂ : (vmmAlloc v₁ heapStart (heapStart + heapSize - 1) vmmFlagsUserRw).2.pmm.outOfLowFrames =
      false := (allocatorHeapInit_outOfLowFrames_eq e₁ rfl).symm.trans ho
  have h₂ := h₁.ok.allocated userRange_heap (by decide : vmmFlagsUserRw.testBit 0 = true) le_rfl ho₂
    fun j hj => by
      rw [hnext, h₁.rest _ fun i hi => by omega, Nat.add_assoc]
      exact hfree (1 + j) (by omega)
  change (vmmAlloc v₁ _ _ _).1 = true ∧ Allocated _ (vmmAlloc v₁ _ _ _).2 _ _ _ at h₂
  have hspace₂ := sameSpace_vmmAlloc v₁ heapStart (heapStart + heapSize - 1) vmmFlagsUserRw
  generalize e₂ : vmmAlloc v₁ heapStart (heapStart + heapSize - 1) vmmFlagsUserRw = x at h₂ hspace₂
  obtain ⟨b, v₂⟩ := x
  obtain ⟨rfl, h₂⟩ := h₂
  rw [hmany] at h₂
  -- what is mapped then
  have hdata : (view v₂ dataPage).isSome := by
    rw [h₂.rest _ fun j _ => by omega]
    exact h₁.bound 0 Nat.one_pos
  have hview : ∀ q, (view v₂ q).isSome ↔ (view r.vmm q).isSome ∨ q = dataPage ∨ q ∈ heapPages := by
    intro q
    by_cases hq : q ∈ heapPages
    · refine iff_of_true ?_ (.inr (.inr hq))
      obtain ⟨j, hj, rfl⟩ := mem_heapPages.1 hq
      exact h₂.bound j hj
    · rw [h₂.rest q fun j hj e => hq (mem_heapPages.2 ⟨j, hj, e⟩)]
      by_cases hd : q = dataPage
      · refine iff_of_true ?_ (.inr (.inl hd))
        rw [hd]
        exact h₁.bound 0 Nat.one_pos
      · rw [h₁.rest q fun j hj e => hd (by omega)]
        simp only [hd, hq, or_false]
  have hboth : Extends r { r with vmm := v₂ } :=
    (h₁.extends hspace₁.current).trans
      (Allocated.extends (r := { r with vmm := v₁ }) h₂ hspace₂.current)
  have hstores := heap_stores_pages
  rw [allocatorHeapInit_eq e₁ e₂, ← List.foldl_cons, foldl_store_vmm]
  generalize (heapStart - 4096 + 8, (0 : UInt8)) :: _ = xs at hstores ⊢
  have hmapped : StoresMapped v₂ xs := fun x hx => by
    obtain ⟨hlt, e | e⟩ := hstores x hx
    · exact ⟨hlt, e ▸ hdata⟩
    · exact ⟨hlt, e ▸ h₂.bound 0 (Nat.zero_lt_succ 255)⟩
  have hnew : ∀ x ∈ xs, view r.vmm (x.1 / 4096) = none := fun x hx => by
    obtain ⟨-, e | e⟩ := hstores x hx
    · rw [e]
      exact hfree 0 (Nat.zero_lt_succ 256)
    · rw [e, hnext]
      exact hfree 1 (Nat.one_lt_succ_succ 255)
  refine ⟨hboth.stores h₂.ok hmapped hnew, fun q hq => ?_, hview⟩
  obtain ⟨j, hj, rfl⟩ := mem_heapPages.1 hq
  exact h₂.flags_eq j hj

/-! ## The load -/

/-- The address space of the process, as `current_PML4`. -/
structure Installed (file : Buf) (r : Ram) : Prop where
  links : OpenLinks r.vmm
  present : ∀ e ∈ ptLoads file, Present file e r
  stackAndHeap : ∀ q ∈ stackPages ∪ heapPages, ∃ f, view r.vmm q =
    some (f, (PageEntry.ofFlags vmmFlagsUserRw).flags)
  pages : ∀ q, (view r.vmm q).isSome ↔ (∃ e ∈ ptLoads file, e.HasPage q) ∨
    q ∈ insert dataPage (stackPages ∪ heapPages)

theorem WellFormedElf.pos (h : WellFormedElf avoid file) (he : e ∈ ptLoads file) : 0 < e.start :=
  Nat.lt_of_lt_of_le (by decide) (h.bounds e he)

theorem WellFormedElf.hasPage_iff (h : WellFormedElf avoid file) (he : e ∈ ptLoads file) :
    e.HasPage q ↔ e.Occupies q :=
  ProgramHeaderEntry.hasPage_iff (h.user e he) (h.pos he) (h.size e he).1

theorem Installed.rights_eq (h : Installed file r) (ha : a < 2 ^ 47) {f flags : ℕ}
    (hv : view r.vmm (a / 4096) = some (f, (PageEntry.ofFlags flags).flags)) :
    rights r.vmm r.vmm.current a = some (PageEntry.ofFlags flags).rights := by
  rw [rights_current h.links ha, hv]
  rfl

theorem Installed.faithful (h : Installed file r) (hw : WellFormedElf avoid file) :
    Faithful file r.vmm.current r := by
  refine ⟨fun e he => (h.present e he).bytes, fun e he hx a ha hq => ?_, fun e he hx a ha hq => ?_,
    fun a ha hq => ?_, fun a ha => ?_⟩
  · obtain ⟨f, hf⟩ := (h.present e he).pages _ ((hw.hasPage_iff he).2 hq)
    rw [h.rights_eq ha hf, e.pageFlags_code hx]
    decide
  · obtain ⟨f, hf⟩ := (h.present e he).pages _ ((hw.hasPage_iff he).2 hq)
    rw [h.rights_eq ha hf, e.pageFlags_data hx]
    decide
  · obtain ⟨f, hf⟩ := h.stackAndHeap _ hq
    rw [h.rights_eq ha hf]
    decide
  · rw [translate_current ha, Option.isSome_map, h.pages]
    refine or_congr_left (exists_congr fun e => and_congr_right fun he => hw.hasPage_iff he)

theorem loadedSegments_eq (h : ∀ e ∈ ptLoads file, Sys.processMemoryStart ≤ e.start) :
    loadedSegments file = ptLoads file := by
  unfold loadedSegments segmentsOf
  refine List.takeWhile_eq_self_iff.2 fun e he => ?_
  exact decide_eq_true (h e he)

theorem loadSegments_fst {l : List ℕ} (h : ∀ i ∈ l, (programHeaderEntry file i).segmentType = 1 →
    Sys.processMemoryStart ≤ (programHeaderEntry file i).start) :
    (loadSegments file r l).1 = true := by
  induction l generalizing r with
  | nil => rfl
  | cons i l ih =>
    rw [List.forall_mem_cons] at h
    unfold loadSegments
    dsimp only
    split_ifs with h₁ h₂
    · exact ih h.2
    · exact absurd (h.1 (not_not.1 h₁)) (Nat.not_le.2 h₂)
    · exact ih h.2

theorem WellFormedElf.loadSegments (h : WellFormedElf avoid file) (r : Ram) :
    loadSegments file r (List.range (Sys.programHeaderEntries file)) =
      (true, (ptLoads file).foldl (loadSegment file) r) := by
  refine Prod.ext (loadSegments_fst fun i hi ht => h.bounds _ ?_) ?_
  · exact List.mem_filter.2 ⟨List.mem_map_of_mem hi, decide_eq_true ht⟩
  · rw [loadSegments_eq, ← loadedSegments_eq h.bounds]
    rfl

/-- **The memory after the load**, with the PML4 of the process. -/
theorem load_installs {kernel : ℕ} (hd : ∀ f < r.vmm.pmm.totalFrames, r.vmm.hhdm f ≠ 0)
    (hpos : 0 < r.vmm.pmm.totalFrames)
    (hw : WellFormedElf (insert dataPage (stackPages ∪ heapPages)) file)
    (hframes : EnoughFrames r kernel file) :
    ∃ r', programLoaderLoadElf64 r kernel file =
        some (r'.vmm.current, { r' with vmm := vmmSetPML4 r'.vmm kernel }) ∧ Installed file r' := by
  obtain ⟨p, v, -, hn⟩ := newSpace_isSome hd hpos kernel
  have hsegs := hw.loadSegments { r with vmm := v }
  obtain ⟨r₁, hr₁⟩ : ∃ r₁, (ptLoads file).foldl (loadSegment file) { r with vmm := v } = r₁ :=
    ⟨_, rfl⟩
  obtain ⟨v₂, hv₂⟩ : ∃ v₂, (vmmAlloc r₁.vmm (stackStart.toNat - stackSize + 1) stackStart.toNat
    vmmFlagsUserRw).2 = v₂ := ⟨_, rfl⟩
  obtain ⟨r₃, hr₃⟩ : ∃ r₃, (allocatorHeapInit { r₁ with vmm := v₂ } heapSize).2 = r₃ := ⟨_, rfl⟩
  rw [hr₁] at hsegs
  have hload := programLoaderLoadElf64_eq hw.header hn hsegs hv₂ hr₃
  -- no allocation on the way has returned `null`
  have ho₃ : r₃.vmm.pmm.outOfLowFrames = false := hframes _ hload
  have ho₂ : v₂.pmm.outOfLowFrames = false :=
    allocatorHeapInit_outOfLowFrames (r := { r₁ with vmm := v₂ }) (hr₃ ▸ ho₃)
  have ho₁ : r₁.vmm.pmm.outOfLowFrames = false := allocPages_outOfLowFrames (hv₂ ▸ ho₂)
  have ho₀ : v.pmm.outOfLowFrames = false :=
    foldl_loadSegment_outOfLowFrames (r := { r with vmm := v }) (hr₁ ▸ ho₁)
  -- the new address space
  have hmaps₀ : MapsSegments [] ({ r with vmm := v } : Ram).vmm := mapsSegments_newSpace hd hn ho₀
  obtain ⟨-, -, -, hcur, hempty⟩ := newSpace_spec hn
  have hopen₀ : OpenLinks v := LinkEntries.empty fun i hi => by rw [hcur, hempty i hi]; rfl
  -- the segments
  have hpair : (ptLoads file).Pairwise fun e e' => ∀ q, e'.HasPage q → ¬ e.HasPage q :=
    hw.disjoint.imp_of_mem fun he he' h q hq => by
      rw [hw.hasPage_iff he]
      exact h q ((hw.hasPage_iff he').1 hq)
  have hsegments := loadSegments_present hmaps₀ hw.user (fun e he => hw.pos he)
    (fun e he => (hw.size e he).2) (fun _ _ _ _ _ h => absurd h List.not_mem_nil) hpair (hr₁ ▸ ho₁)
  rw [hr₁] at hsegments
  obtain ⟨hext₁, hmaps₁, hpres₁⟩ := hsegments
  rw [List.append_nil] at hmaps₁
  have hpages₁ : ∀ q, (view r₁.vmm q).isSome ↔ ∃ e ∈ ptLoads file, e.HasPage q := fun q => by
    simpa only [List.mem_reverse] using hmaps₁.pages q
  have hfree : ∀ q ∈ insert dataPage (stackPages ∪ heapPages), view r₁.vmm q = none := fun q hq => by
    refine hmaps₁.view_eq_none fun e he hpage => ?_
    rw [List.mem_reverse] at he
    exact hw.away e he q ((hw.hasPage_iff he).1 hpage) hq
  -- the stack
  have hfour : pageAmount (stackStart.toNat - stackSize + 1) stackStart.toNat = 4 := by decide
  have h₂ : Allocated r₁.vmm v₂ ((stackStart.toNat - stackSize + 1) / 4096) 4 vmmFlagsUserRw := by
    have h := (hmaps₁.ok.allocated userRange_stack (by decide : vmmFlagsUserRw.testBit 0 = true) le_rfl
      (hv₂ ▸ ho₂) fun j hj => hfree _ (.inr (.inl (mem_stackPages.2 ⟨j, hfour ▸ hj, rfl⟩)))).2
    change Allocated _ (vmmAlloc r₁.vmm _ _ _).2 _ _ _ at h
    rw [hv₂, hfour] at h
    exact h
  have hspace := sameSpace_vmmAlloc r₁.vmm (stackStart.toNat - stackSize + 1) stackStart.toNat
    vmmFlagsUserRw
  rw [hv₂] at hspace
  have hext₂ : Extends r₁ { r₁ with vmm := v₂ } := h₂.extends hspace.current
  -- the heap
  have htop := dataPage_lt_stack
  obtain ⟨hext₃, hheap, hpages₃⟩ := allocatorHeapInit_installs (r := { r₁ with vmm := v₂ }) h₂.ok
    (hr₃ ▸ ho₃) fun j hj => by
      show view v₂ (dataPage + j) = none
      rw [h₂.rest _ fun i _ => by omega]
      exact hfree _ (dataPage_add hj)
  rw [hr₃] at hext₃ hheap hpages₃
  have hext := hext₁.trans (hext₂.trans hext₃)
  have hp : r₃.vmm.current = p := hext.current.trans hcur
  refine ⟨r₃, hp ▸ hload, hext.keepsLinks.openLinks hopen₀, fun e he => ?_, fun q hq => ?_, fun q => ?_⟩
  · exact (hpres₁ e he).mono (hext₂.trans hext₃) (hw.user e he) (hw.pos he)
  · rcases hq with hq | hq
    · obtain ⟨j, hj, rfl⟩ := mem_stackPages.1 hq
      obtain ⟨f, hf⟩ := h₂.flags_eq j hj
      exact ⟨f, hext₃.view_eq _ _ hf⟩
    · exact hheap q hq
  · rw [hpages₃, ← hpages₁, Set.mem_insert_iff, Set.mem_union]
    by_cases hq : q ∈ stackPages
    · refine iff_of_true (.inl ?_) (.inr (.inr (.inl hq)))
      obtain ⟨j, hj, rfl⟩ := mem_stackPages.1 hq
      exact h₂.bound j hj
    · have hrest : view v₂ q = view r₁.vmm q := h₂.rest q fun j hj e =>
        hq (mem_stackPages.2 ⟨j, hj, e⟩)
      rw [show ({ r₁ with vmm := v₂ } : Ram).vmm = v₂ from rfl, hrest]
      simp only [hq, false_or]

/-- **A well-formed program is loaded faithfully.** Its segments stay away from the stack, the heap and
the page of the allocator's data below the heap; there are enough frames, and `malloc` returns a new
block `p` for the process. -/
theorem load_faithful {r : Ram} {s : Sched} {l : List ℕ} {p : ℕ} {file : Buf}
    (hd : ∀ f < r.vmm.pmm.totalFrames, r.vmm.hhdm f ≠ 0) (hpos : 0 < r.vmm.pmm.totalFrames)
    (hring : RingShape s l) (hp : p ∉ s.blocks)
    (hw : WellFormedElf (insert dataPage (stackPages ∪ heapPages)) file)
    (hframes : EnoughFrames r s.kernelPML4 file) :
    ∃ pid pml4 r' s', loadProcess r s p file = some (pid, r', s') ∧ Faithful file pml4 r' ∧
      AddsProcess s s' l p pid (le64 file 24) pml4 := by
  obtain ⟨r', hload, hinst⟩ := load_installs hd hpos hw hframes
  have hring' := hring.loadPML4 s.kernelPML4
  have hne : p ≠ (s.loadPML4 s.kernelPML4).current :=
    (hring'.ne_of_notMem_blocks hp List.mem_cons_self).symm
  have hnew := addProcess_new (le64 file 24) r'.vmm.current false hne
  refine ⟨_, r'.vmm.current, { r' with vmm := vmmSetPML4 r'.vmm s.kernelPML4 }, _,
    congrArg (Option.map _) hload, ?_, hring'.add _ _ false hp, ?_, ?_, ?_, fun q hq => ?_⟩
  · -- `current_PML4` does not matter for what another PML4 translates to
    have h := hinst.faithful hw
    exact ⟨h.bytes, h.code, h.data, h.stackAndHeap, h.mapped⟩
  · exact congrArg Process.pid hnew
  · exact congrArg (fun x => x.regs.rip) hnew
  · exact congrArg Process.pml4 hnew
  · exact addProcess_procs _ _ false hq

/-! ## One segment -/

theorem wellFormed_of_single (hheader : Sys.checkFileElf64 file = none) (hone : ptLoads file = [e])
    (hbounds : Sys.processMemoryStart ≤ e.start) (huser : e.start + e.memorySize.toNat ≤ 2 ^ 47)
    (hsize : 0 < e.memorySize.toNat ∧ e.fileSize.toNat ≤ e.memorySize.toNat)
    (haway : ∀ q, e.Occupies q → q ∉ avoid) : WellFormedElf avoid file := by
  refine ⟨hheader, ?_, ?_, ?_, ?_, ?_⟩
  · rwa [hone, List.forall_mem_singleton]
  · rwa [hone, List.forall_mem_singleton]
  · rwa [hone, List.forall_mem_singleton]
  · rw [hone]
    exact List.pairwise_singleton _ _
  · rwa [hone, List.forall_mem_singleton]

theorem page_of_occupies (hmem : e.memorySize.toNat = 8) (hstart : e.start % 4096 = 0)
    (h : e.Occupies q) : q = e.start / 4096 := by
  obtain ⟨a, ⟨h₁, h₂⟩, rfl⟩ := h
  omega

theorem load_faithful_one_segment :
    ∃ pid pml4 r' s',
      loadProcess directMachine kernelSched 48 (oneSegmentImage 0x2000000) = some (pid, r', s') ∧
        Faithful (oneSegmentImage 0x2000000) pml4 r' ∧
        AddsProcess kernelSched s' [] 48 pid (le64 (oneSegmentImage 0x2000000) 24) pml4 := by
  have hw : WellFormedElf (insert dataPage (stackPages ∪ heapPages)) (oneSegmentImage 0x2000000) := by
    refine wellFormed_of_single (e := ⟨1, 0, 0, 0x2000000, 8, 8⟩) (by decide +kernel)
      (by decide +kernel) (by decide) (by decide) (by decide) fun q hq => ?_
    rw [page_of_occupies (by decide) (by decide) hq]
    rintro (h | h | h)
    · exact absurd h (by decide)
    · exact absurd h.1 (by decide)
    · exact absurd h.1 (by decide)
  refine load_faithful (fun f hf => ?_) (by decide) (RingOk.init _ _ _).toRingShape (by decide) hw
    fun x hx => ?_
  · rw [hhdm_directMachine hf]
    omega
  · obtain ⟨p, r', hload, ho, -⟩ := load_directMachine
    rw [show kernelSched.kernelPML4 = 1 from rfl, hload] at hx
    rw [← Option.some.inj hx]
    exact ho

/-- **A segment on the page of the allocator's data.** The file is well formed and away from the stack
and the heap, 2040 frames are free and no allocation returns `null`; the process is added, but
`allocator_heap_init` has failed and its heap is not mapped. -/
theorem data_page_taken :
    WellFormedElf (stackPages ∪ heapPages) (oneSegmentImage (heapStart - 4096)) ∧
      Stocked directMachine.vmm.pmm 2040 ∧
      EnoughFrames directMachine kernelSched.kernelPML4 (oneSegmentImage (heapStart - 4096)) ∧
      ∃ pid r' s',
        loadProcess directMachine kernelSched 48 (oneSegmentImage (heapStart - 4096)) =
          some (pid, r', s') ∧ translate r'.vmm (s'.procs 48).pml4 heapStart = none ∧
        ¬ Faithful (oneSegmentImage (heapStart - 4096)) (s'.procs 48).pml4 r' := by
  have hrun : (loadProcess directMachine kernelSched 48 (oneSegmentImage (heapStart - 4096))).map
      (fun x => (translate x.2.1.vmm (x.2.2.procs 48).pml4 heapStart, x.2.1.vmm.pmm.outOfLowFrames)) =
        some (none, false) := by
    decide +kernel
  obtain ⟨⟨pid, r', s'⟩, hload, hx⟩ := Option.map_eq_some_iff.1 hrun
  obtain ⟨hnone, ho⟩ := Prod.mk.inj hx
  refine ⟨?_, stocked_directMachine, fun x hx => ?_, pid, r', s', hload, hnone, fun hf => ?_⟩
  · refine wellFormed_of_single (e := ⟨1, 0, 0, 0x555555553000, 8, 8⟩) (by decide +kernel)
      (by decide +kernel) (by decide) (by decide) (by decide) fun q hq => ?_
    rw [page_of_occupies (by decide) (by decide) hq]
    rintro (h | h)
    · exact absurd h.1 (by decide)
    · exact absurd h.1 (by decide)
  · unfold loadProcess at hload
    rw [hx] at hload
    cases hload
    exact ho
  · have hlt : heapStart < 2 ^ 47 := by decide
    have hpage : heapStart / 4096 ∈ heapPages := mem_heapPages.2 ⟨0, by decide, rfl⟩
    have hmapped := (hf.mapped heapStart hlt).2 (.inr (.inr (.inr hpage)))
    rw [hnone] at hmapped
    cases hmapped

end EitanOS
