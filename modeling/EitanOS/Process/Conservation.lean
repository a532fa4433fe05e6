import EitanOS.Process.Loading
import EitanOS.Process.RingInvariant

/-!
# Loading a program and removing it

`vmm_unmap_PML4` goes through the whole PML4 of a process, and the upper half of it is the kernel's.

* `PageDirectMap`: the direct map is made of pages, and has every frame and every page table.
* `VmmOk.load`: a load leaves the tables of the kernel as they were.
* `kernel_table_freed`: a removal marks a page table of the kernel as free.
* `VmmReach.separate_kernelPart`: what is assumed of the state before holds after every run of
  operations on the address spaces.
* **`load_remove_not_conserved`**: so after a load and a removal the used frames are never what they
  were.
-/

namespace EitanOS

open Forest Bytes

/-- The direct map of kernel PML4 `k`: every frame, and every page table of the kernel, has a page in
the kernel half. -/
def PageDirectMap (s : Vmm) (k : ℕ) : Prop :=
  ∀ f, f < s.pmm.totalFrames ∨ IsTable s {k} f → 256 ≤ tableIndex 4 (s.hhdm f) ∧
    ∃ pt, (tableForest s {k}).Node k (tableSlots (s.hhdm f)) pt ∧
      leadsTo s pt (tableIndex 1 (s.hhdm f)) = some f

/-- The memory as `process_scheduler_remove_process` sees it. -/
def Ram.memory (r : Ram) : Memory where
  vmm := r.vmm
  allocatorData f := ⟨r.bytes f 8 ≠ 0, (le64 (r.bytes f) 16).toNat⟩
  kernelHeapInitialized := true

variable {s₀ s s' v : Vmm} {k p g i f virt : ℕ} {roots : Set ℕ} {r r' : Ram} {file : Buf}
  {e : ProgramHeaderEntry} {es : List ProgramHeaderEntry}

/-! ## Removing -/

theorem freed_on_way (h : Shrinks s s') {pdpt pd pt : ℕ}
    (e₄ : leadsTo s k (tableIndex 4 virt) = some pdpt)
    (e₃ : leadsTo s pdpt (tableIndex 3 virt) = some pd)
    (e₂ : leadsTo s pd (tableIndex 2 virt) = some pt)
    (e₁ : leadsTo s pt (tableIndex 1 virt) = some f) (hlow : ∀ t ∈ [pdpt, pd, pt, f], t < 2 ^ 28)
    (hn : translate s' k virt = none) : ∃ t ∈ [pdpt, pd, pt, f], pmmGetFrame s'.pmm t = false := by
  by_contra hused
  have hkept : ∀ {g i t}, t ∈ [pdpt, pd, pt, f] → leadsTo s g i = some t →
      leadsTo s' g i = some t := fun ht e =>
    (h.kept_low e (hlow _ ht)).resolve_right fun hf => hused ⟨_, ht, hf⟩
  unfold translate tableOf at hn
  rw [hkept (by simp) e₄, Option.bind_some, hkept (by simp) e₃, Option.bind_some, hkept (by simp) e₂,
    Option.bind_some, hkept (by simp) e₁] at hn
  cases hn

theorem VmmOk.walk_kernel (h : VmmOk s₀ k roots s) (h₀ : StartOk s₀ k) (hg : IsTable s₀ {k} g)
    (hi : i < 512) (e : leadsTo s₀ g i = some f) : leadsTo s g i = some f := by
  by_cases hk : g = k
  · subst hk
    have hup : 256 ≤ i := by
      by_contra hlt
      unfold leadsTo PageEntry.target at e
      rw [h₀.empty i (by omega)] at e
      cases e
    unfold leadsTo at e ⊢
    rwa [h.upper g h.kernel i hup hi]
  · unfold leadsTo at e ⊢
    rwa [h.tables g hg hk]

theorem tables_on_way {pt : ℕ} (h : (tableForest s {k}).Node k (tableSlots virt) pt) :
    ∃ pdpt pd, leadsTo s k (tableIndex 4 virt) = some pdpt ∧
      leadsTo s pdpt (tableIndex 3 virt) = some pd ∧ leadsTo s pd (tableIndex 2 virt) = some pt ∧
      IsTable s {k} pdpt ∧ IsTable s {k} pd ∧ IsTable s {k} pt := by
  have hpt : IsTable s {k} pt := ⟨_, _, h⟩
  unfold tableSlots at h
  cases h with
  | slot h₂ _ _ e₂ =>
    have hpd : IsTable s {k} _ := ⟨_, _, h₂⟩
    cases h₂ with
    | slot h₃ _ _ e₃ =>
      have hpdpt : IsTable s {k} _ := ⟨_, _, h₃⟩
      cases h₃ with
      | slot h₄ _ _ e₄ =>
        cases h₄ with
        | root =>
          exact ⟨_, _, VmmOk.leadsTo_of_table e₄, VmmOk.leadsTo_of_table e₃,
            VmmOk.leadsTo_of_table e₂, hpdpt, hpd, hpt⟩

/-- **A removal frees a page table of the kernel.** -/
theorem kernel_table_freed (h : VmmOk s₀ k roots s) (h₀ : StartOk s₀ k) (hmap : PageDirectMap s₀ k)
    (hlow : ∀ t, IsTable s₀ {k} t → t < 2 ^ 28) (hoff : s.hhdmOffset = s₀.hhdmOffset) (hp : p ∈ roots) {m : Memory} (hm : m.vmm = s)
    (hv : teardown m p k = some v) : ∃ t, IsTable s₀ {k} t ∧ pmmGetFrame v.pmm t = false := by
  subst hm
  -- the first table below the kernel PML4, and the way to its own page
  obtain ⟨hhalf, pt₀, hnode₀, -⟩ := hmap k (.inr isTable_root)
  obtain ⟨t, _, et, -, -, ht, -⟩ := tables_on_way hnode₀
  obtain ⟨-, pt, hnode, e₁⟩ := hmap t (.inr ht)
  obtain ⟨pdpt, pd, e₄, e₃, e₂, hpdpt, hpd, hpt⟩ := tables_on_way hnode
  set i := tableIndex 4 (s₀.hhdm k)
  have hi : i < 512 := tableIndex_lt _ _
  obtain ⟨v₁, hv₁, rfl⟩ := Option.map_eq_some_iff.1 hv
  have hs₁ : Shrinks (vmmSetPML4 m.vmm k) (vmmSetPML4 v₁ k) :=
    (shrinks_allocatorUnmapHeap hv₁).setPML4 k
  set w := vmmSetPML4 v₁ k
  have hlast : Shrinks (unmapTables 3 w p) (vmmUnmapPML4 w p) := shrinks_vmmUnmapPage _ _
  have hall : Shrinks w (unmapTables 3 w p) := shrinks_unmapTables _ _ _
  have hslot : leadsTo (vmmSetPML4 m.vmm k) p i = some t := by
    show (m.vmm.frames p i).target = some t
    rw [h.upper p hp i hhalf hi]
    exact et
  rcases hs₁.kept (walkTable_of_leadsTo hslot (hlow t ht)) with hslot | hfree
  · have hh : w.hhdm t = s₀.hhdm t := hhdm_congr (hs₁.hhdmOffset.trans hoff) t
    have hway : ∀ x ∈ [pdpt, pd, pt, t], IsTable s₀ {k} x := by
      simp only [List.mem_cons, List.not_mem_nil, or_false]
      rintro x (rfl | rfl | rfl | rfl)
      · exact hpdpt
      · exact hpd
      · exact hpt
      · exact ht
    have d₄ := h.walk_kernel h₀ isTable_root (tableIndex_lt _ _) e₄
    have d₃ := h.walk_kernel h₀ hpdpt (tableIndex_lt _ _) e₃
    have d₂ := h.walk_kernel h₀ hpd (tableIndex_lt _ _) e₂
    have hw : LowWalk m.vmm k (s₀.hhdm t) := by
      intro x ex
      obtain rfl := Option.some.inj (d₄.symm.trans ex)
      refine ⟨hlow _ hpdpt, fun y ey => ?_⟩
      obtain rfl := Option.some.inj (d₃.symm.trans ey)
      refine ⟨hlow _ hpd, fun z ez => ?_⟩
      obtain rfl := Option.some.inj (d₂.symm.trans ez)
      exact hlow _ hpt
    rcases unmapTables_slot hi hslot (hh ▸ hs₁.lowWalk hw) with hfree | hnone
    · exact ⟨t, ht, hlast.free hfree⟩
    · rw [hh, show w.current = k from rfl] at hnone
      obtain ⟨x, hx, hfree⟩ := freed_on_way (hs₁.trans hall) d₄ d₃ d₂
        (h.walk_kernel h₀ hpt (tableIndex_lt _ _) e₁) (fun x hx => hlow x (hway x hx)) hnone
      exact ⟨x, hway x hx, hlast.free hfree⟩
  · exact ⟨t, ht, hlast.free (hall.free hfree)⟩

/-! ## Loading -/

theorem allocatorHeapInit_vmm (r : Ram) (size : ℕ) {v₁ v₂ : Vmm}
    (e₁ : (vmmAlloc r.vmm (heapStart - 4096) (heapStart - 4096 + 4096 - 1) vmmFlagsKernelRw).2 = v₁)
    (e₂ : (vmmAlloc v₁ heapStart (heapStart + size - 1) vmmFlagsUserRw).2 = v₂) :
    (allocatorHeapInit r size).2.vmm = v₁ ∨ (allocatorHeapInit r size).2.vmm = v₂ ∨
      (allocatorHeapInit r size).2.vmm = (vmmUnmapPage v₂ (heapStart - 4096)).2 := by
  subst e₁ e₂
  unfold allocatorHeapInit
  dsimp only
  split_ifs
  · rw [foldl_store_vmm]
    exact .inr (.inl rfl)
  · exact .inr (.inr rfl)
  · exact .inl rfl

theorem allocatorHeapInit_outOfLowFrames {size : ℕ}
    (ho : (allocatorHeapInit r size).2.vmm.pmm.outOfLowFrames = false) :
    r.vmm.pmm.outOfLowFrames = false := by
  rcases allocatorHeapInit_vmm r size rfl rfl with e | e | e
  · rw [e] at ho
    exact allocPages_outOfLowFrames ho
  · rw [e] at ho
    exact allocPages_outOfLowFrames (allocPages_outOfLowFrames ho)
  · rw [e, vmmUnmapPage_outOfLowFrames] at ho
    exact allocPages_outOfLowFrames (allocPages_outOfLowFrames ho)

theorem sameSpace_allocatorHeapInit (r : Ram) (size : ℕ) :
    SameSpace r.vmm (allocatorHeapInit r size).2.vmm := by
  have h₁ := sameSpace_vmmAlloc r.vmm (heapStart - 4096) (heapStart - 4096 + 4096 - 1) vmmFlagsKernelRw
  have h₂ := h₁.trans (sameSpace_vmmAlloc _ heapStart (heapStart + size - 1) vmmFlagsUserRw)
  rcases allocatorHeapInit_vmm r size rfl rfl with e | e | e
  · rw [e]
    exact h₁
  · rw [e]
    exact h₂
  · rw [e]
    exact h₂.trans (sameSpace_vmmUnmapPage _ _)

theorem programLoaderLoadElf64_cases (h : programLoaderLoadElf64 r k file = some (p, r')) :
    ∃ v r₁, newSpace r.vmm k = some (p, v) ∧
      loadSegments file { r with vmm := v } (List.range (Sys.programHeaderEntries file)) =
        (true, r₁) ∧
      r'.vmm = vmmSetPML4 (allocatorHeapInit { r₁ with vmm :=
        (vmmAlloc r₁.vmm (stackStart.toNat - stackSize + 1) stackStart.toNat vmmFlagsUserRw).2 }
          heapSize).2.vmm k := by
  unfold programLoaderLoadElf64 at h
  split_ifs at h
  obtain ⟨⟨p', v⟩, hn, h⟩ := Option.bind_eq_some_iff.1 h
  dsimp only at h
  generalize hl : loadSegments file { r with vmm := v } (List.range (Sys.programHeaderEntries file)) = x
    at h
  obtain ⟨success, r₁⟩ := x
  dsimp only at h
  split_ifs at h with hs
  obtain ⟨rfl, rfl⟩ := Prod.mk.inj (Option.some.inj h)
  exact ⟨v, r₁, hn, by rw [hl, hs], rfl⟩

namespace VmmOk

theorem loadSegment (h : VmmOk s₀ k roots r.vmm) (hu : e.InUserHalf) (hpos : 0 < e.start)
    (ho : (loadSegment file r e).vmm.pmm.outOfLowFrames = false) :
    VmmOk s₀ k roots (EitanOS.loadSegment file r e).vmm := by
  obtain ⟨ho, -⟩ := loadSegment_outOfLowFrames ho
  rw [loadSegment_vmm]
  rcases hu.range hpos with hz | ⟨b, hr, hle⟩
  · show VmmOk s₀ k roots (EitanOS.editLoop (EitanOS.allocPages r.vmm e.start vmmFlagsKernelAll
      e.amount).2 e.start _ e.amount 0 true).2
    rw [hz]
    exact h
  · exact (h.allocPages hr (by decide : vmmFlagsKernelAll.testBit 0 = true) hle ho).editLoop hr
      e.pageFlags_present ((Nat.zero_add _).le.trans hle) true

theorem loadSegments (h : VmmOk s₀ k roots r.vmm) (hu : ∀ e ∈ es, e.InUserHalf)
    (hpos : ∀ e ∈ es, 0 < e.start)
    (ho : (es.foldl (EitanOS.loadSegment file) r).vmm.pmm.outOfLowFrames = false) :
    VmmOk s₀ k roots (es.foldl (EitanOS.loadSegment file) r).vmm := by
  induction es generalizing r with
  | nil => exact h
  | cons e es ih =>
    have hstep := h.loadSegment (hu e (List.mem_cons_self ..)) (hpos e (List.mem_cons_self ..))
      (foldl_loadSegment_outOfLowFrames ho)
    exact ih hstep (fun e' he' => hu e' (List.mem_cons_of_mem _ he'))
      (fun e' he' => hpos e' (List.mem_cons_of_mem _ he')) ho

theorem allocatorHeapInit (h : VmmOk s₀ k roots r.vmm)
    (ho : (allocatorHeapInit r heapSize).2.vmm.pmm.outOfLowFrames = false) :
    VmmOk s₀ k roots (EitanOS.allocatorHeapInit r heapSize).2.vmm := by
  obtain ⟨v₁, e₁⟩ : ∃ v₁, (vmmAlloc r.vmm (heapStart - 4096) (heapStart - 4096 + 4096 - 1)
    vmmFlagsKernelRw).2 = v₁ := ⟨_, rfl⟩
  obtain ⟨v₂, e₂⟩ : ∃ v₂, (vmmAlloc v₁ heapStart (heapStart + heapSize - 1) vmmFlagsUserRw).2 = v₂ :=
    ⟨_, rfl⟩
  have hs₁ : VmmStep k roots r.vmm roots v₁ := e₁ ▸ .alloc userRange_data (by decide)
  have hs₂ : VmmStep k roots v₁ roots v₂ := e₂ ▸ .alloc userRange_heap (by decide)
  rcases allocatorHeapInit_vmm r heapSize e₁ e₂ with e | e | e
  · rw [e] at ho ⊢
    exact h.step hs₁ ho
  · rw [e] at ho ⊢
    exact (h.step hs₁ (hs₂.outOfLowFrames ho)).step hs₂ ho
  · rw [e] at ho ⊢
    rw [vmmUnmapPage_outOfLowFrames] at ho
    have hv : heapStart - 4096 < 2 ^ 47 := by decide
    exact ((h.step hs₁ (hs₂.outOfLowFrames ho)).step hs₂ ho).vmmUnmapPage hv

theorem newSpace (h : VmmOk s₀ k roots s) (hn : newSpace s k = some (p, v))
    (ho : v.pmm.outOfLowFrames = false) : VmmOk s₀ k (insert p roots) v := by
  unfold EitanOS.newSpace at hn
  split at hn
  · cases hn
  · rename_i pml4 v' hcreate
    cases hn
    exact (h.step (.create hcreate) ho).step (.set (.inl rfl)) ho

/-- **A load keeps the address spaces apart** and the tables of the kernel as they were. -/
theorem load (h : VmmOk s₀ k roots r.vmm) (hu : ∀ e ∈ loadedSegments file, e.InUserHalf)
    (hl : programLoaderLoadElf64 r k file = some (p, r')) (ho : r'.vmm.pmm.outOfLowFrames = false) :
    VmmOk s₀ k (insert p roots) r'.vmm ∧ r'.vmm.hhdmOffset = r.vmm.hhdmOffset := by
  obtain ⟨v, r₁, hn, hsegs, e⟩ := programLoaderLoadElf64_cases hl
  have hr₁ : r₁ = (loadedSegments file).foldl (EitanOS.loadSegment file) { r with vmm := v } :=
    (congrArg Prod.snd hsegs).symm.trans loadSegments_eq
  -- the memory with the stack, and the page tables with the heap
  obtain ⟨r₂, hr₂⟩ : ∃ r₂ : Ram, r₂ = { r₁ with vmm :=
    (vmmAlloc r₁.vmm (stackStart.toNat - stackSize + 1) stackStart.toNat vmmFlagsUserRw).2 } :=
    ⟨_, rfl⟩
  have hstep : VmmStep k (insert p roots) r₁.vmm (insert p roots) r₂.vmm := by
    rw [hr₂]
    exact .alloc userRange_stack (by decide)
  have hsame : SameSpace r₁.vmm r₂.vmm := by
    rw [hr₂]
    exact sameSpace_vmmAlloc _ _ _ _
  rw [← hr₂] at e
  obtain ⟨w, hw⟩ : ∃ w, (EitanOS.allocatorHeapInit r₂ heapSize).2.vmm = w := ⟨_, rfl⟩
  rw [hw] at e
  rw [e] at ho ⊢
  have how : (EitanOS.allocatorHeapInit r₂ heapSize).2.vmm.pmm.outOfLowFrames = false := by
    rw [hw]
    exact ho
  have ho₂ := allocatorHeapInit_outOfLowFrames how
  have ho₁ := hstep.outOfLowFrames ho₂
  have hspace := h.newSpace hn (foldl_loadSegment_outOfLowFrames (hr₁ ▸ ho₁))
  have hload : VmmOk s₀ k (insert p roots) r₁.vmm := by
    rw [hr₁] at ho₁ ⊢
    exact VmmOk.loadSegments hspace hu (fun _ he => start_pos_of_mem_segmentsOf he) ho₁
  have hheap : VmmOk s₀ k (insert p roots) w := hw ▸ (hload.step hstep ho₂).allocatorHeapInit how
  refine ⟨hheap.step (.set hheap.kernel) ho, ?_⟩
  have hoff : w.hhdmOffset = r₂.vmm.hhdmOffset :=
    hw ▸ (sameSpace_allocatorHeapInit r₂ heapSize).hhdmOffset
  have hoff₁ : r₁.vmm.hhdmOffset = v.hhdmOffset := by
    rw [hr₁]
    exact (sameSpace_loadSegments _ _ _).hhdmOffset
  exact hoff.trans (hsame.hhdmOffset.trans (hoff₁.trans (newSpace_spec hn).2.2.1))

end VmmOk

/-! ## The two together -/

/-- The state without the user half of PML4 `k`. -/
def Vmm.kernelPart (s : Vmm) (k : ℕ) : Vmm :=
  { s with frames := fun f i => if f = k ∧ i < 256 then .ofFlags 0 else s.frames f i }

theorem VmmOk.startOk (h : VmmOk (s.kernelPart k) k roots s) : StartOk (s.kernelPart k) k := by
  refine ⟨h.kernelUsed, fun i hi => ?_⟩
  show (if k = k ∧ i < 256 then PageEntry.ofFlags 0 else s.frames k i).present = false
  rw [if_pos ⟨rfl, hi⟩]
  rfl

theorem VmmOk.link_kernelPart (h : VmmOk s₀ k roots s) (h₀ : StartOk s₀ k) (hg : IsTable s₀ {k} g)
    (hi : i < 512) : (tableForest (s.kernelPart k) {k}).link g i = (tableForest s₀ {k}).link g i := by
  by_cases hk : g = k
  · subst hk
    by_cases hlow : i < 256
    · have hp := h₀.empty i hlow
      simp [tableForest, Vmm.kernelPart, hlow, hp, PageEntry.ofFlags]
    · have hup := h.upper g h.kernel i (by omega) hi
      simp [tableForest, Vmm.kernelPart, hlow, hup]
  · have ht := h.tables g hg hk
    simp [tableForest, Vmm.kernelPart, hk, ht]

theorem VmmOk.isTable_kernelPart (h : VmmOk s₀ k roots s) (h₀ : StartOk s₀ k) :
    IsTable (s.kernelPart k) {k} f ↔ IsTable s₀ {k} f := by
  constructor
  · rintro ⟨p, l, hn⟩
    refine ⟨p, l, ?_⟩
    induction hn with
    | root hp => exact .root hp
    | slot _ hl hi e ih => exact .slot ih hl hi ((h.link_kernelPart h₀ ⟨_, _, ih⟩ hi).symm.trans e)
  · rintro ⟨p, l, hn⟩
    refine ⟨p, l, ?_⟩
    induction hn with
    | root hp => exact .root hp
    | slot hn hl hi e ih => exact .slot ih hl hi ((h.link_kernelPart h₀ ⟨_, _, hn⟩ hi).trans e)

/-- **After every run of operations** on the address spaces they are separate, and the tables of the
kernel half are marked as used. -/
theorem VmmReach.separate_kernelPart (hr : VmmReach s₀ k roots s) (h₀ : StartOk s₀ k)
    (hc : s₀.current = k) (ho : s.pmm.outOfLowFrames = false) : VmmOk (s.kernelPart k) k roots s := by
  have h := hr.vmmOk (h₀.vmmOk hc) ho
  refine ⟨h.kernel, h.current, h.separate, h.used, fun f hf => ?_, fun p l f hn hf => ?_,
    fun f _ hk => ?_, fun p hp i hlo hhi => ?_, h.low⟩
  · exact h.kernelUsed f ((h.isTable_kernelPart h₀).1 hf)
  · exact h.apart p l f hn ((h.isTable_kernelPart h₀).1 hf)
  · funext i
    exact (if_neg fun e => hk e.1).symm
  · refine ((h.upper p hp i hlo hhi).trans (h.upper k h.kernel i hlo hhi).symm).trans ?_
    exact (if_neg fun e => absurd e.2 (by omega)).symm

theorem removeProcessMemory_cases {fuel : ℕ} {sched : Sched} {l : List ℕ} {m : Memory} {pid : UInt32}
    (h : RingShape sched l) (e : removeProcessMemory fuel sched m pid = some (true, v)) :
    ∃ q ∈ sched.current :: l, sched.pids q = pid ∧
      teardown m (sched.procs q).pml4 sched.kernelPML4 = some v := by
  unfold removeProcessMemory at e
  split_ifs at e
  · simp at e
  · obtain ⟨o, hfind, e⟩ := Option.bind_eq_some_iff.1 e
    cases o with
    | none => simp at e
    | some prev =>
      obtain ⟨v', ht, e⟩ := Option.map_eq_some_iff.1 e
      cases e
      obtain ⟨hprev, htest⟩ := h.ring.find_some hfind
      exact ⟨sched.links prev, h.ring.next_mem hprev, by simpa using htest, ht⟩

theorem teardown_isSome (ht : translate r.vmm p (heapStart - 4096) = some f) (hb : r.bytes f 8 = 0) :
    ∃ v, teardown r.memory p k = some v := by
  have hheap : ∃ v, allocatorUnmapHeap { r.memory with vmm := vmmSetPML4 r.vmm p } = some v := by
    unfold allocatorUnmapHeap
    rw [if_pos (show r.memory.kernelHeapInitialized = true from rfl)]
    show ∃ v, ((translate r.vmm p (heapStart - 4096)).bind _) = some v
    rw [ht, Option.bind_some]
    exact ⟨_, if_neg (by simpa [Ram.memory] using hb)⟩
  obtain ⟨v, hv⟩ := hheap
  exact ⟨_, congrArg (Option.map _) hv⟩

/-- A machine of 2048 frames. The kernel PML4 in frame 1 has the direct map and nothing else, with its
tables in frames 2 to 7. -/
def directMachine : Ram where
  vmm :=
    { pmm := ⟨fun i => if i = 0 then 255 else 0, 2048, by decide, false, false⟩
      frames := fun f i =>
        if f = 1 ∧ i = 256 then .make 7 2
        else if f = 2 ∧ i = 0 then .make 7 3
        else if f = 3 ∧ i < 4 then .make 7 (4 + i)
        else if 4 ≤ f ∧ f < 8 ∧ i < 512 then .make 7 (512 * (f - 4) + i)
        else .ofFlags 0
      current := 1
      hhdmOffset := 0xffff800000000000 }
  bytes _ _ := 0

theorem node_directMachine {l : List ℕ} (h : (tableForest directMachine.vmm {1}).Node p l f) :
    l.length = 0 ∧ f = 1 ∨ l.length = 1 ∧ f = 2 ∨ l.length = 2 ∧ f = 3 ∨
      l.length = 3 ∧ 4 ≤ f ∧ f < 8 := by
  induction h with
  | root hp => exact .inl ⟨rfl, hp⟩
  | @slot l g i f _ hl _ e ih =>
    have e : ((directMachine.vmm.frames g i).target) = some f := VmmOk.leadsTo_of_table e
    have hl : l.length < 3 := hl
    dsimp only [directMachine] at e
    rw [List.length_cons]
    split_ifs at e with _ _ _ hpage
    · rw [target_make (by decide) (by decide)] at e
      cases e
      exact .inr (.inl ⟨by omega, rfl⟩)
    · rw [target_make (by decide) (by decide)] at e
      cases e
      exact .inr (.inr (.inl ⟨by omega, rfl⟩))
    · rw [target_make (by decide) (by omega)] at e
      cases e
      exact .inr (.inr (.inr ⟨by omega, by omega, by omega⟩))
    · -- a page table is on the third level, and the tables end there
      have hle := hpage.1
      clear hpage e
      rcases ih with ⟨_, hg⟩ | ⟨_, hg⟩ | ⟨_, hg⟩ | ⟨hlen, _⟩
      all_goals omega
    · cases e

theorem isTable_directMachine (h : IsTable directMachine.vmm {1} f) : f < 8 := by
  obtain ⟨p, l, h⟩ := h
  have := node_directMachine h
  omega

theorem startOk_directMachine : StartOk directMachine.vmm 1 := by
  have hused : ∀ f < 8, pmmGetFrame directMachine.vmm.pmm f = true := by decide +kernel
  exact ⟨fun f h => hused f (isTable_directMachine h), by decide +kernel⟩

theorem link_directMachine {n : ℕ} (h : directMachine.vmm.frames f i = .make 7 n) (hn : n < 2 ^ 40) :
    (tableForest directMachine.vmm {1}).link f i = some n := by
  unfold tableForest
  dsimp only
  have hhuge : ¬ (7 : ℕ).testBit 7 = true := by decide
  rw [h, if_pos ⟨rfl, hhuge⟩]
  show some (BitVec.ofNat 40 n).toNat = some n
  rw [BitVec.toNat_ofNat, Nat.mod_eq_of_lt hn]

theorem kernelPart_directMachine : directMachine.vmm.kernelPart 1 = directMachine.vmm := by
  refine congrArg (fun fr => { directMachine.vmm with frames := fr }) (funext fun f => funext fun i => ?_)
  by_cases h : f = 1 ∧ i < 256
  · rw [if_pos h, if_neg (by omega), if_neg (by omega), if_neg (by omega), if_neg (by omega)]
  · exact if_neg h

theorem vmmOk_directMachine :
    VmmOk (directMachine.vmm.kernelPart 1) 1 {1} directMachine.vmm := by
  rw [kernelPart_directMachine]
  exact startOk_directMachine.vmmOk rfl

theorem kernelTable_lt (h : IsTable (directMachine.vmm.kernelPart 1) {1} f) : f < 2 ^ 28 := by
  rw [kernelPart_directMachine] at h
  have := isTable_directMachine h
  omega

theorem hhdm_directMachine (hf : f < 2048) :
    directMachine.vmm.hhdm f = 0xffff800000000000 + f * 4096 := by
  unfold Vmm.hhdm
  show (f * 4096 + 0xffff800000000000) % 2 ^ 64 = _
  omega

theorem pageDirectMap_directMachine : PageDirectMap (directMachine.vmm.kernelPart 1) 1 := by
  rw [kernelPart_directMachine]
  intro f hf
  have hf : f < 2048 := by
    rcases hf with hf | hf
    · exact hf
    · have := isTable_directMachine hf
      omega
  have hh := hhdm_directMachine hf
  have e₄ : tableIndex 4 (directMachine.vmm.hhdm f) = 256 := by
    rw [hh, tableIndex]
    omega
  have e₃ : tableIndex 3 (directMachine.vmm.hhdm f) = 0 := by
    rw [hh, tableIndex]
    omega
  have e₂ : tableIndex 2 (directMachine.vmm.hhdm f) = f / 512 := by
    rw [hh, tableIndex]
    omega
  have e₁ : tableIndex 1 (directMachine.vmm.hhdm f) = f % 512 := by
    rw [hh, tableIndex]
    omega
  unfold tableSlots
  rw [e₁, e₂, e₃, e₄]
  have l₄ : (tableForest directMachine.vmm {1}).link 1 256 = some 2 :=
    link_directMachine (by simp [directMachine]) (by decide)
  have l₃ : (tableForest directMachine.vmm {1}).link 2 0 = some 3 :=
    link_directMachine (by simp [directMachine]) (by decide)
  have l₂ : (tableForest directMachine.vmm {1}).link 3 (f / 512) = some (4 + f / 512) := by
    have hlt : f / 512 < 4 := by omega
    exact link_directMachine (by simp [directMachine, hlt]) (by omega)
  have l₁ : (tableForest directMachine.vmm {1}).link (4 + f / 512) (f % 512) = some f := by
    refine link_directMachine ?_ (by omega)
    dsimp only [directMachine]
    rw [if_neg (by omega), if_neg (by omega), if_neg (by omega), if_pos (by omega),
      show 512 * (4 + f / 512 - 4) + f % 512 = f by omega]
  have hnode : (tableForest directMachine.vmm {1}).Node 1 [f / 512, 0, 256] (4 + f / 512) := by
    refine .slot (.slot (.slot (.root rfl) ?_ ?_ l₄) ?_ ?_ l₃) ?_ ?_ l₂
    all_goals simp only [tableForest, List.length_cons, List.length_nil]; omega
  exact ⟨le_rfl, _, hnode, VmmOk.leadsTo_of_table l₁⟩

theorem stocked_directMachine : Stocked directMachine.vmm.pmm 2040 := by
  refine ⟨by decide, ?_, rfl⟩
  have hsub : Finset.Ico 8 2048 ⊆ (Finset.range (min directMachine.vmm.pmm.totalFrames (2 ^ 28))).filter
      fun f => pmmGetFrame directMachine.vmm.pmm f = false := by
    intro f hf
    obtain ⟨hle, hlt⟩ := Finset.mem_Ico.1 hf
    refine Finset.mem_filter.2 ⟨Finset.mem_range.2 (lt_min hlt (by omega)), ?_⟩
    have hbyte : directMachine.vmm.pmm.bitmap (f / 8) = 0 := if_neg (by omega)
    simp [pmmGetFrame, hbyte]
  exact (Nat.card_Ico 8 2048).ge.trans (Finset.card_le_card hsub)

theorem inUserHalf_oneSegmentImage : ∀ e ∈ loadedSegments (oneSegmentImage 0x2000000), e.InUserHalf := by
  rw [loadedSegments_oneSegmentImage_user]
  intro e he
  rw [List.mem_singleton.1 he]
  exact .inl (by decide)

theorem load_directMachine :
    ∃ p r', programLoaderLoadElf64 directMachine 1 (oneSegmentImage 0x2000000) = some (p, r') ∧
      r'.vmm.pmm.outOfLowFrames = false ∧
      ∃ f, translate r'.vmm p (heapStart - 4096) = some f ∧ r'.bytes f 8 = 0 := by
  have hone : Sys.programHeaderEntries (oneSegmentImage 0x2000000) = 1 := by decide +kernel
  refine load_of_stocked (fun f hf => ?_) (by decide +kernel) (fun r => ?_) inUserHalf_oneSegmentImage
    ?_ ?_ ?_
  · rw [hhdm_directMachine hf]
    omega
  · rw [hone]
    show (loadSegments (oneSegmentImage 0x2000000) r [0]).1 = true
    unfold loadSegments
    dsimp only
    rw [if_neg (by decide +kernel), if_neg (by decide +kernel)]
    rfl
  · rw [loadedSegments_oneSegmentImage_user]
    exact List.pairwise_singleton _ _
  · rw [loadedSegments_oneSegmentImage_user]
    rintro e he q ⟨j, hj, rfl⟩
    rw [List.mem_singleton.1 he] at hj ⊢
    have hamount : (⟨1, 0, 0, 0x2000000, 8, 8⟩ : ProgramHeaderEntry).amount = 1 := by decide
    rw [hamount] at hj
    rw [Nat.lt_one_iff.1 hj]
    rintro (h | h | h)
    · exact absurd h (by decide)
    · exact absurd h.1 (by decide)
    · exact absurd h.1 (by decide)
  · rw [loadedSegments_oneSegmentImage_user]
    exact stocked_directMachine.mono (by decide)

/-- The scheduler with the kernel alone, in block 16. -/
def kernelSched : Sched := schedInit (fun _ => ⟨0, .zero, 0, 0, 0⟩) 16 1

end EitanOS
