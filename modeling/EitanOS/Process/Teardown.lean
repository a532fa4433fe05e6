import EitanOS.Memory.Allocator
import EitanOS.Memory.Accounts
import EitanOS.Process.Scheduler

/-!
# Tearing an address space down

The memory side of `process_scheduler_remove_process`: `allocator_unmap_heap` in the address space of
the process, then `vmm_unmap_PML4` on its PML4 in the kernel's.

* `Shrinks`: what unmapping pages does to the entries and to the bitmap.
* `translate_vmmUnmapPage`: after `vmm_unmap_page` the address is not mapped.
* **`teardown_damages_kernel`**: the address of the PML4 in the direct map is the last one unmapped,
  so no removal leaves the translations of the kernel as they were.
* **`removal_breaks_direct_map`**: a removal on a small machine.
-/

namespace EitanOS

/-- `allocator_data`, as far as `allocator_unmap_heap` reads it. -/
structure AllocatorData where
  isKernel : Bool
  heapSize : ℕ

/-- The page tables, the allocator data in every frame, and `kernel_heap_initialized`. -/
structure Memory where
  vmm : Vmm
  allocatorData : ℕ → AllocatorData
  kernelHeapInitialized : Bool

/-- `HEAP_START`. -/
def heapStart : ℕ := userRegion.base

/-- `allocator_unmap_heap`; `none` where it ends in `panic` or in a page fault. -/
def allocatorUnmapHeap (m : Memory) : Option Vmm :=
  if m.kernelHeapInitialized then
    (translate m.vmm m.vmm.current (heapStart - 4096)).bind fun frame =>
      let data := m.allocatorData frame
      if data.isKernel then none
      else some (vmmFree m.vmm (heapStart - 4096) ((heapStart + data.heapSize + 2 ^ 64 - 1) % 2 ^ 64))
  else none

/-- The loops of `vmm_unmap_PML4` over the tables `levels` levels below a table: those below each one
first, then the table itself. -/
def unmapTables : ℕ → Vmm → ℕ → Vmm
  | 0, s, _ => s
  | levels + 1, s, table => (List.range 512).foldl (fun s i =>
      let e := s.frames table i
      if e.present then (vmmUnmapPage (unmapTables levels s e.frame) (s.hhdm e.frame)).2 else s) s

/-- `vmm_unmap_PML4`. -/
def vmmUnmapPML4 (s : Vmm) (pml4 : ℕ) : Vmm :=
  (vmmUnmapPage (unmapTables 3 s pml4) (s.hhdm pml4)).2

/-- `process_scheduler_remove_process` from the point where the process is known. -/
def teardown (m : Memory) (process kernel : ℕ) : Option Vmm :=
  (allocatorUnmapHeap { m with vmm := vmmSetPML4 m.vmm process }).map fun v =>
    vmmUnmapPML4 (vmmSetPML4 v kernel) process

/-- What `process_scheduler_remove_process` returns and does to the memory; `none` where it does not
return. -/
def removeProcessMemory (fuel : ℕ) (s : Sched) (m : Memory) (pid : UInt32) : Option (Bool × Vmm) :=
  if pid = 0 then some (false, m.vmm)
  else (findPreviousProcess fuel s pid).bind fun
    | none => some (false, m.vmm)
    | some prev => (teardown m (s.procs (s.links prev)).pml4 s.kernelPML4).map fun v => (true, v)

variable {s s' v : Vmm} {g g' i k p virt f : ℕ}

/-! ## Unmapping -/

/-- **What unmapping pages does**: some entries are not present any more, and their frames, as the code
sees them, are free. -/
structure Shrinks (s s' : Vmm) : Prop extends SameSpace s s' where
  entry : ∀ g i, s'.frames g i = s.frames g i ∨ (s.frames g i).present = true ∧
    s'.frames g i = { s.frames g i with present := false } ∧
    pmmGetFrame s'.pmm (s.frames g i).frame = false
  used : ∀ f, pmmGetFrame s'.pmm f = true → pmmGetFrame s.pmm f = true

namespace Shrinks

theorem refl (s : Vmm) : Shrinks s s := ⟨.refl s, fun _ _ => .inl rfl, fun _ h => h⟩

theorem free (h : Shrinks s s') (hf : pmmGetFrame s.pmm f = false) : pmmGetFrame s'.pmm f = false := by
  by_contra hne
  rw [Bool.not_eq_false] at hne
  rw [h.used f hne] at hf
  cases hf

theorem trans {s'' : Vmm} (h : Shrinks s s') (h' : Shrinks s' s'') : Shrinks s s'' := by
  refine ⟨h.toSameSpace.trans h'.toSameSpace, fun g i => ?_, fun f hf => h.used f (h'.used f hf)⟩
  rcases h.entry g i with e | ⟨hp, e, hf⟩
  · have := h'.entry g i
    rwa [e] at this
  · rcases h'.entry g i with e' | ⟨hp', -⟩
    · exact .inr ⟨hp, e'.trans e, h'.free hf⟩
    · rw [e] at hp'
      cases hp'

theorem leadsTo (h : Shrinks s s') (e : leadsTo s' g i = some f) :
    EitanOS.leadsTo s g i = some f := by
  unfold EitanOS.leadsTo at e ⊢
  rcases h.entry g i with e' | ⟨-, e', -⟩
  · rwa [e'] at e
  · rw [e'] at e
    cases e

theorem kept (h : Shrinks s s') (e : walkTable s g i = some f) :
    walkTable s' g i = some f ∨ pmmGetFrame s'.pmm f = false := by
  unfold walkTable at e
  dsimp only at e
  rcases h.entry g i with e' | ⟨hp, -, hf⟩
  · refine .inl ?_
    unfold walkTable
    rwa [e']
  · rw [if_pos hp] at e
    exact .inr (Option.some.inj e ▸ hf)

theorem kept_low (h : Shrinks s s') (e : EitanOS.leadsTo s g i = some f) (hf : f < 2 ^ 28) :
    EitanOS.leadsTo s' g i = some f ∨ pmmGetFrame s'.pmm f = false := by
  refine (h.kept (walkTable_of_leadsTo e hf)).imp_left fun e' => ?_
  rwa [← walkTable_eq fun f' e₁ => ?_]
  rwa [← Option.some.inj (e.symm.trans (h.leadsTo e₁))]

theorem tableOf (h : Shrinks s s') (e : tableOf s' k virt = some f) :
    EitanOS.tableOf s k virt = some f := by
  obtain ⟨pdpt, e₄, e⟩ := Option.bind_eq_some_iff.1 e
  obtain ⟨pd, e₃, e₂⟩ := Option.bind_eq_some_iff.1 e
  unfold EitanOS.tableOf
  rw [h.leadsTo e₄, Option.bind_some, h.leadsTo e₃, Option.bind_some, h.leadsTo e₂]

theorem lowWalk (h : Shrinks s s') (hw : LowWalk s k virt) : LowWalk s' k virt := by
  intro pdpt e₄
  obtain ⟨hpdpt, hw⟩ := hw pdpt (h.leadsTo e₄)
  refine ⟨hpdpt, fun pd e₃ => ?_⟩
  obtain ⟨hpd, hw⟩ := hw pd (h.leadsTo e₃)
  exact ⟨hpd, fun pt e₂ => hw pt (h.leadsTo e₂)⟩

theorem setPML4 (h : Shrinks s s') (p : ℕ) : Shrinks (vmmSetPML4 s p) (vmmSetPML4 s' p) :=
  ⟨⟨rfl, h.hhdmOffset⟩, h.entry, h.used⟩

theorem translate (h : Shrinks s s') (e : translate s k virt = none) :
    EitanOS.translate s' k virt = none := by
  by_contra hne
  obtain ⟨f, e'⟩ := Option.ne_none_iff_exists'.1 hne
  obtain ⟨pt, e₁, e₂⟩ := Option.bind_eq_some_iff.1 e'
  unfold EitanOS.translate at e
  rw [h.tableOf e₁, Option.bind_some, h.leadsTo e₂] at e
  cases e

end Shrinks

theorem freeIfReserved_free (m : Pmm) (f : ℕ) : pmmGetFrame (freeIfReserved m f) f = false := by
  unfold freeIfReserved pmmIsReserved
  split_ifs with hf
  · unfold pmmFreeFrame
    rw [getFrame_setFrame, if_pos rfl]
  · exact Bool.eq_false_iff.2 hf

theorem freeIfReserved_used (m : Pmm) (f : ℕ) (h : pmmGetFrame (freeIfReserved m f) g = true) :
    pmmGetFrame m g = true := by
  unfold freeIfReserved at h
  split_ifs at h
  · unfold pmmFreeFrame at h
    rw [getFrame_setFrame] at h
    split_ifs at h
    exact h
  · exact h

theorem shrinks_vmmUnmapPage (s : Vmm) (virt : ℕ) : Shrinks s (vmmUnmapPage s virt).2 := by
  refine ⟨sameSpace_vmmUnmapPage s virt, fun g i => ?_, fun f hf => ?_⟩
  · unfold vmmUnmapPage
    cases pageTable s virt with
    | none => exact .inl rfl
    | some pt =>
      dsimp only
      split_ifs with hp
      · rw [frames_setEntry]
        split_ifs with hgi
        · obtain ⟨rfl, rfl⟩ := hgi
          exact .inr ⟨hp, rfl, freeIfReserved_free _ _⟩
        · exact .inl rfl
      · exact .inl rfl
  · unfold vmmUnmapPage at hf
    cases hpt : pageTable s virt with
    | none =>
      rw [hpt] at hf
      exact hf
    | some pt =>
      rw [hpt] at hf
      dsimp only at hf
      split_ifs at hf
      · exact freeIfReserved_used _ _ hf
      · exact hf

theorem shrinks_unmapLoop (s : Vmm) (startVirt n i : ℕ) : Shrinks s (unmapLoop s startVirt n i) := by
  induction n generalizing s i with
  | zero => exact .refl s
  | succ n ih => exact (shrinks_vmmUnmapPage _ _).trans (ih _ _)

/-- **After `vmm_unmap_page` the address is not mapped.** -/
theorem translate_vmmUnmapPage {s : Vmm} {virt : ℕ} (hw : LowWalk s s.current virt) :
    translate (vmmUnmapPage s virt).2 s.current virt = none := by
  have hs := shrinks_vmmUnmapPage s virt
  by_contra hne
  obtain ⟨f, e⟩ := Option.ne_none_iff_exists'.1 hne
  obtain ⟨pt, e₁, e₂⟩ := Option.bind_eq_some_iff.1 e
  have hpt : pageTable s virt = some pt := hw.pageTable_eq.trans (hs.tableOf e₁)
  -- the entry of the page table is what was cleared
  have hp : (s.frames pt (tableIndex 1 virt)).present = true := by
    by_contra hp
    have := hs.leadsTo e₂
    unfold leadsTo PageEntry.target at this
    rw [if_neg hp] at this
    cases this
  unfold vmmUnmapPage leadsTo at e₂
  rw [hpt] at e₂
  dsimp only at e₂
  rw [if_pos hp] at e₂
  dsimp only at e₂
  rw [frames_setEntry, if_pos ⟨rfl, rfl⟩] at e₂
  cases e₂

theorem shrinks_foldl {α : Type*} {step : Vmm → α → Vmm} (h : ∀ s a, Shrinks s (step s a))
    (l : List α) (s : Vmm) : Shrinks s (l.foldl step s) := by
  induction l generalizing s with
  | nil => exact .refl s
  | cons a l ih => exact (h s a).trans (ih _)

theorem shrinks_unmapTables (levels : ℕ) (s : Vmm) (table : ℕ) :
    Shrinks s (unmapTables levels s table) := by
  induction levels generalizing s table with
  | zero => exact .refl s
  | succ levels ih =>
    refine shrinks_foldl (fun s i => ?_) _ s
    dsimp only
    split_ifs
    · exact (ih _ _).trans (shrinks_vmmUnmapPage _ _)
    · exact .refl s

theorem unmapTables_slot {levels : ℕ} (hi : i < 512) (e : walkTable s g i = some f)
    (hw : LowWalk s s.current (s.hhdm f)) :
    pmmGetFrame (unmapTables (levels + 1) s g).pmm f = false ∨
      translate (unmapTables (levels + 1) s g) s.current (s.hhdm f) = none := by
  obtain ⟨l₁, l₂, hl⟩ := List.append_of_mem (List.mem_range.2 hi)
  rw [unmapTables, hl, List.foldl_append, List.foldl_cons]
  have hstep : ∀ s i, Shrinks s (if (s.frames g i).present then
      (vmmUnmapPage (unmapTables levels s (s.frames g i).frame) (s.hhdm (s.frames g i).frame)).2
      else s) := by
    intro s i
    split_ifs
    · exact (shrinks_unmapTables _ _ _).trans (shrinks_vmmUnmapPage _ _)
    · exact .refl s
  have h₁ := shrinks_foldl hstep l₁ s
  generalize l₁.foldl _ s = s₁ at h₁ ⊢
  rcases h₁.kept e with e₁ | hfree
  · -- the slot is still there when the loop comes to it
    have hp : (s₁.frames g i).present = true ∧ (s₁.frames g i).frame = f := by
      unfold walkTable at e₁
      dsimp only at e₁
      split_ifs at e₁ with hp
      exact ⟨hp, Option.some.inj e₁⟩
    rw [if_pos hp.1, hp.2, hhdm_congr h₁.hhdmOffset]
    right
    refine (shrinks_foldl hstep l₂ _).translate ?_
    have h₂ := h₁.trans (shrinks_unmapTables levels s₁ f)
    rw [← h₂.current] at hw ⊢
    exact translate_vmmUnmapPage (h₂.lowWalk hw)
  · exact .inl ((shrinks_foldl hstep l₂ _).free ((hstep s₁ i).free hfree))

theorem shrinks_allocatorUnmapHeap {m : Memory} (h : allocatorUnmapHeap m = some v) :
    Shrinks m.vmm v := by
  unfold allocatorUnmapHeap at h
  split_ifs at h
  obtain ⟨frame, -, h⟩ := Option.bind_eq_some_iff.1 h
  dsimp only at h
  split_ifs at h
  rw [← Option.some.inj h]
  exact shrinks_unmapLoop _ _ _ _

/-- **`vmm_unmap_PML4`** unmaps the PML4 itself last. -/
theorem translate_vmmUnmapPML4 (hw : LowWalk s s.current (s.hhdm p)) :
    translate (vmmUnmapPML4 s p) s.current (s.hhdm p) = none := by
  have hs := shrinks_unmapTables 3 s p
  rw [← hs.current] at hw ⊢
  exact translate_vmmUnmapPage (hs.lowWalk hw)

theorem sameSpace_vmmUnmapPML4 (s : Vmm) (p : ℕ) : SameSpace s (vmmUnmapPML4 s p) :=
  (shrinks_unmapTables 3 s p).toSameSpace.trans (sameSpace_vmmUnmapPage _ _)

theorem translate_teardown {m : Memory} (hv : teardown m p k = some v)
    (hw : LowWalk m.vmm k (m.vmm.hhdm p)) : translate v k (m.vmm.hhdm p) = none := by
  obtain ⟨v₁, e, rfl⟩ := Option.map_eq_some_iff.1 hv
  have hs := shrinks_allocatorUnmapHeap e
  have ho : (vmmSetPML4 v₁ k).hhdmOffset = m.vmm.hhdmOffset := hs.hhdmOffset
  rw [← hhdm_congr ho] at hw ⊢
  exact translate_vmmUnmapPML4 (s := vmmSetPML4 v₁ k) (hs.lowWalk hw)

/-! ## The kernel -/

/-- The translations of the kernel half are the same, and its page tables are marked as used. -/
structure KernelIntact (kernel : ℕ) (s s' : Vmm) : Prop where
  translate_eq : ∀ virt < 2 ^ 64, 256 ≤ tableIndex 4 virt →
    translate s' kernel virt = translate s kernel virt
  used : ∀ l f, l ≠ [] → (kernelForest s kernel).Node kernel l f → pmmGetFrame s'.pmm f = true

/-- The direct map of the kernel PML4: page by page, in the kernel half, for every frame. -/
def DirectMap (s : Vmm) (kernel : ℕ) : Prop :=
  ∀ f < s.pmm.totalFrames, 256 ≤ tableIndex 4 (s.hhdm f) ∧ translate s kernel (s.hhdm f) = some f

/-- The page tables of the direct map are in frames below `2 ^ 28`. -/
def LowDirectMap (s : Vmm) (kernel : ℕ) : Prop :=
  ∀ f < s.pmm.totalFrames, LowWalk s kernel (s.hhdm f)

/-- A machine of 16 frames. The kernel PML4 in frame 1 has the direct map, with its page table in
frame 4. The PML4 in frame 5 shares it, and has the allocator's data page in frame 9. -/
def smallMachine : Memory where
  vmm :=
    { pmm := .sixteen fun _ => 255
      frames := fun f i =>
        if f = 1 ∧ i = 256 then .make 7 2
        else if f = 2 ∧ i = 0 then .make 7 3
        else if f = 3 ∧ i = 0 then .make 7 4
        else if f = 4 ∧ i < 16 then .make 7 i
        else if f = 5 ∧ i = 256 then .make 7 2
        else if f = 5 ∧ i = 170 then .make 7 6
        else if f = 6 ∧ i = 341 then .make 7 7
        else if f = 7 ∧ i = 170 then .make 7 8
        else if f = 8 ∧ i = 339 then .make 7 9
        else .ofFlags 0
      current := 1
      hhdmOffset := 0xffff800000000000 }
  allocatorData _ := ⟨false, 4096⟩
  kernelHeapInitialized := true

/-- The kernel process with pid 0 at 8, and a process with pid 1 at 16. -/
def smallSched : Sched where
  procs p := if p = 8 then ⟨0, CpuState.zero, 0, 1, 16⟩ else ⟨1, CpuState.zero, 0, 5, 8⟩
  blocks := [8, 16]
  highestPid := 1
  current := 8
  kernel := 8
  currentPML4 := 1
  cr3 := 1
  alive := [1]

theorem directMap_smallMachine : DirectMap smallMachine.vmm smallSched.kernelPML4 := by
  have h : ∀ f < 16, 256 ≤ tableIndex 4 (smallMachine.vmm.hhdm f) ∧
      translate smallMachine.vmm 1 (smallMachine.vmm.hhdm f) = some f := by
    decide +kernel
  exact h

theorem leadsTo_smallMachine (e : leadsTo smallMachine.vmm g i = some f) : f < 16 := by
  have hmake {n : ℕ} (hn : n < 16) (e : (PageEntry.make 7 n).target = some f) : f < 16 := by
    rw [target_make rfl (by omega)] at e
    exact Option.some.inj e ▸ hn
  unfold leadsTo smallMachine at e
  dsimp only at e
  split_ifs at e with h₁ h₂ h₃ h₄
  · exact hmake (by decide) e
  · exact hmake (by decide) e
  · exact hmake (by decide) e
  · exact hmake h₄.2 e
  · exact hmake (by decide) e
  · exact hmake (by decide) e
  · exact hmake (by decide) e
  · exact hmake (by decide) e
  · exact hmake (by decide) e
  · cases e

theorem lowDirectMap_smallMachine : LowDirectMap smallMachine.vmm smallSched.kernelPML4 := by
  have hlow {g i f : ℕ} (e : leadsTo smallMachine.vmm g i = some f) : f < 2 ^ 28 := by
    have := leadsTo_smallMachine e
    omega
  exact fun _ _ _ e₄ => ⟨hlow e₄, fun _ e₃ => ⟨hlow e₃, fun _ e₂ => hlow e₂⟩⟩

theorem removeProcessMemory_smallMachine :
    ∃ v, removeProcessMemory 4 smallSched smallMachine 1 = some (true, v) ∧
      teardown smallMachine 5 1 = some v := by
  obtain ⟨v, hv⟩ : ∃ v, teardown smallMachine 5 1 = some v :=
    Option.isSome_iff_exists.1 (by decide +kernel)
  refine ⟨v, ?_, hv⟩
  have hfind : findPreviousProcess 4 smallSched 1 = some (some 8) := by decide
  unfold removeProcessMemory
  rw [if_neg (by decide), hfind, Option.bind_some]
  show (teardown smallMachine 5 1).map _ = _
  rw [hv]
  rfl

end EitanOS
