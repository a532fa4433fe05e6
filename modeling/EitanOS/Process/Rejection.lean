import EitanOS.Memory.Entries
import EitanOS.Process.Installation
import EitanOS.Process.Ownership
import EitanOS.Process.Room

/-!
# Rejected programs

`program_loader_load_elf64` on the whole machine: heaps, page tables, process ring and interrupt flag.
A program is rejected for its header before anything is touched, and for a segment out of bounds in
the middle of the loop, with interrupts off and the new PML4 loaded.

* `loadSegments_rejects`: where the loop returns `false`, the PML4 has lost its place in the direct map.
* **`leavesNoTrace_iff`**: a program leaves no trace if and only if its header is rejected and the
  message can be built.
* `load_ram`: where a program is loaded, the memory is as the model of the memory alone says.
-/

namespace EitanOS

open Prog Bytes

/-- The machine while a program is loaded. -/
structure LoadState where
  heap : Kernel
  ram : Ram
  sched : Sched
  /-- The interrupt flag of the processor. -/
  interruptFlag : Bool

/-- Code of the loader. -/
abbrev Loader := Code LoadState

namespace Loader

/-- Code that works on the heaps. -/
def onHeap {α : Type} (m : Sys α) : Loader α := do
  let c ← get
  match exec m c.heap with
  | (some a, h) => do
    set { c with heap := h }
    return a
  | (none, h) => do
    set { c with heap := h }
    failure

/-- `cli`, or `sti`. -/
def setInterrupts (b : Bool) : Loader Unit := modify fun c => { c with interruptFlag := b }

/-- The new PML4 is loaded, with the page tables `v`. -/
def loadNewPML4 (pml4 : ℕ) (v : Vmm) : Loader Unit := do
  onHeap Sys.enterNewSpace
  modify fun c => { c with ram := { c.ram with vmm := v }, sched := c.sched.loadPML4 pml4 }

/-- `vmm_set_PML4(process_scheduler_get_kernel_PML4()); vmm_load_cpu();` -/
def loadKernelPML4 : Loader Unit := do
  onHeap (setSpace 0)
  modify fun c =>
    { c with
      ram := { c.ram with vmm := vmmSetPML4 c.ram.vmm c.sched.kernelPML4 }
      sched := c.sched.loadPML4 c.sched.kernelPML4 }

/-- `vmm_unmap_PML4`. -/
def unmapPML4 (pml4 : ℕ) : Loader Unit := modify fun c =>
  { c with ram := { c.ram with vmm := vmmUnmapPML4 c.ram.vmm pml4 } }

/-- Segment `i` is loaded. A store to an address that is not mapped faults; what the stores do to the
heaps of the machine is `copies i`. -/
def loadSegment (copies : ℕ → Kernel → Kernel) (file : Buf) (i : ℕ) : Loader Unit := do
  let c ← get
  let e := programHeaderEntry file i
  let v := (e.alloc c.ram.vmm).2
  if ∀ x ∈ e.stores file, (translate v v.current x.1).isSome then
    set { c with heap := copies i c.heap, ram := EitanOS.loadSegment file c.ram e }
  else failure

/-- The loop of `program_loader_load_elf64`. -/
def loadSegments (copies : ℕ → Kernel → Kernel) (file : Buf) (pml4 : ℕ) : List ℕ → Loader Bool
  | [] => return true
  | i :: l =>
    let e := programHeaderEntry file i
    -- 1 = PT_LOAD
    if e.segmentType ≠ 1 then loadSegments copies file pml4 l
    else if e.start < Sys.processMemoryStart then do
      onHeap (Sys.logError "Program wants to load out of bounds")
      loadKernelPML4
      unmapPML4 pml4
      return false
    else do
      loadSegment copies file i
      loadSegments copies file pml4 l

/-- The memory with the stack and the heap of the process, if there is room for them. It is not to be
computed in proofs. -/
@[irreducible] def stackAndHeap (r : Ram) : Bool × Ram :=
  let stack := stackStart.toNat
  let v := (vmmAlloc r.vmm (stack - stackSize + 1) stack vmmFlagsUserRw).2
  allocatorHeapInit { r with vmm := v } heapSize

/-- The stack and the heap of the process. -/
def mapStackAndHeap : Loader Unit := do
  let c ← get
  set { c with ram := (stackAndHeap c.ram).2 }
  onHeap (Sys.allocatorHeapInit (stackAndHeap c.ram).1)

/-- `process_scheduler_add_process`. -/
def addProcess (entry : UInt64) (pml4 : ℕ) : Loader Unit := do
  setInterrupts false
  let process ← onHeap (malloc 216)
  onHeap (access process True)
  onHeap (modify fun s => { s with highestPid := s.highestPid + 1 })
  modify fun c => { c with sched := (EitanOS.addProcess c.sched process entry pml4 false).1 }
  setInterrupts true

/-- `program_loader_load_elf64` after its loop. -/
def startProcess (entry : UInt64) (pml4 : ℕ) : Loader Bool := do
  mapStackAndHeap
  loadKernelPML4
  addProcess entry pml4
  return true

/-- `program_loader_load_elf64` once there is a new PML4. -/
def loadInto (copies : ℕ → Kernel → Kernel) (file : Buf) (pml4 : ℕ) (v : Vmm) : Loader Bool := do
  loadNewPML4 pml4 v
  if ← loadSegments copies file pml4 (List.range (Sys.programHeaderEntries file)) then
    startProcess (le64 file 24) pml4
  else return false

/-- `program_loader_load_elf64` once the header is checked. -/
def loadChecked (copies : ℕ → Kernel → Kernel) (file : Buf) : Loader Bool := do
  setInterrupts false
  let c ← get
  match newSpace c.ram.vmm c.sched.kernelPML4 with
  | none => do
    set { c with ram := { c.ram with vmm := (vmmCreatePML4 c.ram.vmm).2 } }
    onHeap (Sys.logError "Failed to create PML4")
    return false
  | some (pml4, v) => loadInto copies file pml4 v

/-- `program_loader_load_elf64`. -/
def programLoaderLoadElf64 (copies : ℕ → Kernel → Kernel) (file : Buf) : Loader Bool :=
  match Sys.checkFileElf64 file with
  | some msg => do
    onHeap (Sys.logError msg)
    return false
  | none => loadChecked copies file

end Loader

/-- Program header `i` is a PT_LOAD segment below `PROCESS_MEMORY_START`. -/
def OutOfBounds (file : Buf) (i : ℕ) : Prop :=
  (programHeaderEntry file i).segmentType = 1 ∧
    (programHeaderEntry file i).start < Sys.processMemoryStart

/-- The file is no program that can be loaded. -/
def Rejected (file : Buf) : Prop :=
  Sys.checkFileElf64 file ≠ none ∨ ∃ i < Sys.programHeaderEntries file, OutOfBounds file i

/-- Ring, active PML4, translations of the kernel, used frames and interrupt flag are the same. -/
structure Untouched (c c' : LoadState) : Prop where
  sched : c'.sched = c.sched
  active : c'.ram.vmm.current = c.ram.vmm.current
  translate_eq : ∀ virt,
    translate c'.ram.vmm c.sched.kernelPML4 virt = translate c.ram.vmm c.sched.kernelPML4 virt
  frames : ∀ f, pmmGetFrame c'.ram.vmm.pmm f = pmmGetFrame c.ram.vmm.pmm f
  interruptFlag : c'.interruptFlag = c.interruptFlag

/-- `program_loader_load_elf64` returns `false`, and the machine is as it was before. -/
def LeavesNoTrace (copies : ℕ → Kernel → Kernel) (file : Buf) (c : LoadState) : Prop :=
  ∃ c', exec (Loader.programLoaderLoadElf64 copies file) c = (some false, c') ∧ Untouched c c'

variable {α : Type} {copies : ℕ → Kernel → Kernel} {file : Buf} {c : LoadState} {l : List ℕ}
  {r : Ram} {k off p : ℕ} {L : Prop}

/-! ## The loop -/

theorem EntryRule.Holds.newSpace {R : EntryRule} {s v : Vmm} (h : R.Holds s)
    (hn : newSpace s k = some (p, v)) : R.Holds v := by
  have hpmm := h.withPmm (pmmAllocFrame_totalFrames s.pmm)
  unfold EitanOS.newSpace vmmCreatePML4 at hn
  dsimp only at hn
  split_ifs at hn
  cases hn
  exact ((hpmm.zeroFrame _).copyKernelPML4 _ _).setPML4 _

theorem EntryRule.Holds.loadSegment {R : EntryRule} (h : R.Holds r.vmm) (e : ProgramHeaderEntry) :
    R.Holds (EitanOS.loadSegment file r e).vmm := by
  rw [loadSegment_vmm]
  exact (h.vmmAlloc _ _ _).editLoop _ _ _ _ _

namespace Loader

theorem exec_onHeap (m : Sys α) (c : LoadState) :
    exec (onHeap m) c = ((exec m c.heap).1, { c with heap := (exec m c.heap).2 }) := by
  unfold onHeap
  rw [exec_get_bind]
  rcases exec m c.heap with ⟨_ | a, h⟩
  · rfl
  · rfl

theorem onHeap_keeps {m : Sys α} {P : LoadState → Prop} (hP : ∀ c h, P c → P { c with heap := h }) :
    Triple (fun _ => True) P (onHeap m) fun _ => P := by
  intro c hc
  rw [exec_onHeap]
  split
  · rename_i e
    rw [← (Prod.mk.inj e).2]
    exact hP c _ hc
  · exact True.intro

/-- In the middle of a load: the kernel's PML4 is `k`, the direct map has the offset `off`, and
interrupts are off. -/
structure Midway (k off : ℕ) (c : LoadState) : Prop where
  kernel : c.sched.kernelPML4 = k
  offset : c.ram.vmm.hhdmOffset = off
  interrupts : c.interruptFlag = false

/-- So far, if `L`, all frames have been below `2 ^ 28`. -/
structure Loading (L : Prop) (k off : ℕ) (c : LoadState) : Prop extends Midway k off c where
  low : L → lowRule.Holds c.ram.vmm

theorem onHeap_loading {m : Sys α} :
    Triple (fun _ => True) (Loading L k off) (onHeap m) fun _ => Loading L k off :=
  onHeap_keeps fun _ _ hc => ⟨⟨hc.kernel, hc.offset, hc.interrupts⟩, hc.low⟩

theorem loadNewPML4_loading {v : Vmm} (hv : v.hhdmOffset = off) (hlow : L → lowRule.Holds v) :
    Triple (fun _ => True) (Midway k off) (loadNewPML4 p v) fun _ => Loading L k off :=
  (onHeap_keeps fun _ _ hc => ⟨hc.kernel, hc.offset, hc.interrupts⟩).bind fun _ =>
    Triple.modify fun _ hc => ⟨⟨hc.kernel, hv, hc.interrupts⟩, hlow⟩

theorem loadKernelPML4_spec : Triple (fun _ => True) (Loading L k off) loadKernelPML4
    fun _ c => Loading L k off c ∧ c.ram.vmm.current = k :=
  onHeap_loading.bind fun _ => Triple.modify fun _ hc =>
    ⟨⟨⟨hc.kernel, hc.offset, hc.interrupts⟩, fun hL => (hc.low hL).setPML4 _⟩, hc.kernel⟩

theorem unmapPML4_spec : Triple (fun _ => True) (fun c => Loading L k off c ∧ c.ram.vmm.current = k)
    (unmapPML4 p) fun _ c =>
      Midway k off c ∧ (L → translate c.ram.vmm k (c.ram.vmm.hhdm p) = none) := by
  refine Triple.modify fun c ⟨hc, hcur⟩ => ?_
  have hoff := (sameSpace_vmmUnmapPML4 c.ram.vmm p).hhdmOffset
  refine ⟨⟨hc.kernel, hoff.trans hc.offset, hc.interrupts⟩, fun hL => ?_⟩
  have ht := translate_vmmUnmapPML4 (p := p) ((hc.low hL).lowWalk c.ram.vmm.current _)
  rw [hcur, ← hhdm_congr hoff] at ht
  dsimp only
  exact ht

theorem loadSegment_loading {i : ℕ} :
    Triple (fun _ => True) (Loading L k off) (loadSegment copies file i) fun _ => Loading L k off := by
  refine Triple.get fun c₀ => Triple.ite (fun _ => ?_) fun _ => Triple.stop fun _ _ => True.intro
  rintro c ⟨rfl, hc⟩
  refine ⟨⟨hc.kernel, ?_, hc.interrupts⟩, fun hL => (hc.low hL).loadSegment _⟩
  exact (sameSpace_loadSegments file c.ram [programHeaderEntry file i]).hhdmOffset.trans hc.offset

/-- **The loop rejects**: it returns `true` only if no segment is out of bounds, and where it returns
`false` the kernel has lost the direct map of the PML4. -/
theorem loadSegments_rejects :
    Triple (fun _ => True) (Loading L k off) (loadSegments copies file p l) fun b c =>
      Midway k off c ∧ (b = true → ∀ i ∈ l, ¬ OutOfBounds file i) ∧
        (b = false → L → translate c.ram.vmm k (c.ram.vmm.hhdm p) = none) := by
  induction l with
  | nil =>
    exact Triple.ret fun c hc => ⟨hc.toMidway, fun _ i hi => absurd hi List.not_mem_nil, nofun⟩
  | cons i l ih =>
    rw [loadSegments]
    refine Triple.ite (fun htype => ?_) fun htype => Triple.ite (fun hlow => ?_) fun hlow => ?_
    · refine ih.post fun b c ⟨hc, hnone, hlost⟩ => ⟨hc, fun hb => ?_, hlost⟩
      exact List.forall_mem_cons.2 ⟨fun h => htype h.1, hnone hb⟩
    · refine onHeap_loading.bind fun _ => loadKernelPML4_spec.bind fun _ => unmapPML4_spec.bind fun _ => ?_
      exact Triple.ret fun c ⟨hc, hlost⟩ => ⟨hc, nofun, fun _ => hlost⟩
    · refine loadSegment_loading.bind fun _ => ih.post fun b c ⟨hc, hnone, hlost⟩ =>
        ⟨hc, fun hb => ?_, hlost⟩
      exact List.forall_mem_cons.2 ⟨fun h => hlow h.2, hnone hb⟩

/-! ## The load -/

theorem startProcess_true {entry : UInt64} :
    Triple (fun _ => True) (fun _ => True) (startProcess entry p) fun b _ => b = true := by
  refine (Triple.trivial _ _).bind fun _ => (Triple.trivial _ _).bind fun _ => ?_
  exact (Triple.trivial _ _).bind fun _ => Triple.ret fun _ _ => rfl

theorem loadInto_rejects {v : Vmm} (hv : v.hhdmOffset = off) (hlow : L → lowRule.Holds v) :
    Triple (fun _ => True) (Midway k off) (loadInto copies file p v) fun b c =>
      (b = true → ∀ i < Sys.programHeaderEntries file, ¬ OutOfBounds file i) ∧
        (b = false → Midway k off c ∧ (L → translate c.ram.vmm k (c.ram.vmm.hhdm p) = none)) := by
  refine (loadNewPML4_loading hv hlow).bind fun _ => loadSegments_rejects.bind fun b =>
    Triple.ite (fun hb => ?_) fun hb => ?_
  · rintro c ⟨-, hnone, -⟩
    refine (startProcess_true.post fun b' c' hb' => ⟨fun _ i hi => ?_, fun h => ?_⟩) c True.intro
    · exact hnone hb i (List.mem_range.2 hi)
    · exact absurd (hb'.symm.trans h) nofun
  · exact Triple.ret fun c ⟨hc, _, hlost⟩ => ⟨nofun, fun _ => ⟨hc, hlost (Bool.eq_false_iff.2 hb)⟩⟩

theorem loadChecked_rule {c₀ : LoadState} {Q : Bool → LoadState → Prop}
    (hfail : newSpace c₀.ram.vmm c₀.sched.kernelPML4 = none → ∀ c, c.interruptFlag = false → Q false c)
    (hload : ∀ p v, newSpace c₀.ram.vmm c₀.sched.kernelPML4 = some (p, v) →
      Triple (fun _ => True) (fun c => c = { c₀ with interruptFlag := false })
        (loadInto copies file p v) Q) :
    Triple (fun _ => True) (fun c => c = c₀) (loadChecked copies file) Q := by
  refine Triple.bind (R := fun _ c => c = { c₀ with interruptFlag := false }) ?_ fun _ => ?_
  · refine Triple.modify fun c hc => ?_
    rw [hc]
  refine Triple.get fun c₁ => ?_
  have hpre : ∀ c, (c = c₁ ∧ c = { c₀ with interruptFlag := false }) →
      c₁ = { c₀ with interruptFlag := false } ∧ c = { c₀ with interruptFlag := false } := by
    rintro c ⟨rfl, rfl⟩
    exact ⟨rfl, rfl⟩
  refine (Triple.assume fun e => ?_).pre hpre
  subst e
  dsimp only
  cases hn : newSpace c₀.ram.vmm c₀.sched.kernelPML4 with
  | none =>
    refine Triple.bind (R := fun _ c => c.interruptFlag = false) (fun _ _ => rfl) fun _ => ?_
    refine (onHeap_keeps fun _ _ hc => hc).bind fun _ => Triple.ret fun c hc => ?_
    exact hfail hn c hc
  | some x => exact hload x.1 x.2 hn

variable (copies file) in
theorem loadChecked_spec (c₀ : LoadState) :
    Triple (fun _ => True) (fun c => c = c₀) (loadChecked copies file) fun b c =>
      (b = true → ∀ i < Sys.programHeaderEntries file, ¬ OutOfBounds file i) ∧
        (b = false → c.interruptFlag = false ∧
          ∀ p v, newSpace c₀.ram.vmm c₀.sched.kernelPML4 = some (p, v) → lowRule.Holds c₀.ram.vmm →
            translate c.ram.vmm c₀.sched.kernelPML4 (c₀.ram.vmm.hhdm p) = none) := by
  refine loadChecked_rule (fun hn c hc => ⟨nofun, fun _ => ⟨hc, fun p v e => ?_⟩⟩) fun p v hn => ?_
  · rw [hn] at e
    cases e
  refine ((loadInto_rejects (L := lowRule.Holds c₀.ram.vmm) (k := c₀.sched.kernelPML4)
    (newSpace_spec hn).2.2.1 fun hlow => hlow.newSpace hn).pre ?_).post ?_
  · rintro c rfl
    exact ⟨rfl, rfl, rfl⟩
  · refine fun b c ⟨htrue, hfalse⟩ => ⟨htrue, fun hb => ?_⟩
    obtain ⟨hc, hlost⟩ := hfalse hb
    refine ⟨hc.interrupts, fun p' v' e hlow => ?_⟩
    rw [hn] at e
    cases e
    rw [← hhdm_congr hc.offset]
    exact hlost hlow

theorem exec_checkedHeader (h : Sys.checkFileElf64 file = none) :
    exec (programLoaderLoadElf64 copies file) c = exec (loadChecked copies file) c := by
  unfold programLoaderLoadElf64
  rw [h]

theorem exec_rejectedHeader {msg : String} (h : Sys.checkFileElf64 file = some msg) :
    exec (programLoaderLoadElf64 copies file) c =
      ((exec (Sys.logError msg) c.heap).1.map fun _ => false,
        { c with heap := (exec (Sys.logError msg) c.heap).2 }) := by
  unfold programLoaderLoadElf64
  rw [h]
  dsimp only
  rw [exec_bind, exec_onHeap]
  rcases exec (Sys.logError msg) c.heap with ⟨_ | _, h⟩
  · rfl
  · rfl

end Loader

/-- **A rejected file is not loaded.** -/
theorem Rejected.not_loaded (h : Rejected file) :
    (exec (Loader.programLoaderLoadElf64 copies file) c).1 ≠ some true := by
  cases hcheck : Sys.checkFileElf64 file with
  | none =>
    obtain ⟨i, hi, hout⟩ := h.resolve_left (not_not.2 hcheck)
    have hspec := Loader.loadChecked_spec copies file c c rfl
    rw [Loader.exec_checkedHeader hcheck]
    generalize exec (Loader.loadChecked copies file) c = r at hspec ⊢
    rintro htrue
    obtain ⟨b, c'⟩ := r
    subst htrue
    exact hspec.1 rfl i hi hout
  | some msg =>
    rw [Loader.exec_rejectedHeader hcheck]
    cases (exec (Sys.logError msg) c.heap).1 with
    | none => nofun
    | some _ => nofun

theorem leavesNoTrace_of_header {msg : String} (hcheck : Sys.checkFileElf64 file = some msg) :
    LeavesNoTrace copies file c ↔ (exec (Sys.logError msg) c.heap).1.isSome := by
  unfold LeavesNoTrace
  rw [Loader.exec_rejectedHeader hcheck]
  cases (exec (Sys.logError msg) c.heap).1 with
  | none =>
    refine ⟨fun ⟨_, e, _⟩ => ?_, nofun⟩
    cases e
  | some _ => exact ⟨fun _ => rfl, fun _ => ⟨_, rfl, rfl, rfl, fun _ => rfl, fun _ => rfl, rfl⟩⟩

/-- **A checked file leaves a trace**, whether it is loaded or not. -/
theorem not_leavesNoTrace (hcheck : Sys.checkFileElf64 file = none)
    (hmap : c.interruptFlag = false → 0 < c.ram.vmm.pmm.totalFrames ∧
      DirectMap c.ram.vmm c.sched.kernelPML4 ∧ lowRule.Holds c.ram.vmm) :
    ¬ LeavesNoTrace copies file c := by
  rintro ⟨c', e, hsame⟩
  have hspec := Loader.loadChecked_spec copies file c c rfl
  rw [← Loader.exec_checkedHeader hcheck, e] at hspec
  obtain ⟨hflag, hlost⟩ := hspec.2 rfl
  -- interrupts were off before, and the PML4 was in the direct map
  obtain ⟨hpos, hdirect, hlow⟩ := hmap (hsame.interruptFlag.symm.trans hflag)
  have hne : ∀ f < c.ram.vmm.pmm.totalFrames, c.ram.vmm.hhdm f ≠ 0 := fun f hf h => by
    have hhalf := (hdirect f hf).1
    rw [h] at hhalf
    exact absurd hhalf (by decide)
  obtain ⟨p, v, hlt, hn⟩ := newSpace_isSome hne hpos c.sched.kernelPML4
  have hsome := hsame.translate_eq (c.ram.vmm.hhdm p)
  rw [hlost p v hn hlow, (hdirect p hlt).2] at hsome
  cases hsome

/-- **What a rejected program leaves.** It is never loaded, and it leaves no trace if and only if it is
rejected for its header and the message can be built. If interrupts are off before, this is for a
kernel with the direct map, on a machine whose frames are below `2 ^ 28`. -/
theorem leavesNoTrace_iff {copies : ℕ → Kernel → Kernel} {file : Buf} {c : LoadState}
    (hok : KernelOk c.heap)
    (hmap : c.interruptFlag = false → 0 < c.ram.vmm.pmm.totalFrames ∧
      DirectMap c.ram.vmm c.sched.kernelPML4 ∧ lowRule.Holds c.ram.vmm) :
    (Rejected file → (exec (Loader.programLoaderLoadElf64 copies file) c).1 ≠ some true) ∧
      (LeavesNoTrace copies file c ↔
        ∃ msg, Sys.checkFileElf64 file = some msg ∧ RoomForMessage c.heap msg) := by
  refine ⟨Rejected.not_loaded, ?_⟩
  cases hcheck : Sys.checkFileElf64 file with
  | none => exact ⟨fun h => absurd h (not_leavesNoTrace hcheck hmap), nofun⟩
  | some msg =>
    rw [leavesNoTrace_of_header hcheck, logError_returns_iff hok (Sys.checkFileElf64_length hcheck)]
    exact ⟨fun h => ⟨msg, rfl, h⟩, fun ⟨_, e, h⟩ => Option.some.inj e ▸ h⟩

/-! ## The memory -/

namespace Loader

/-- The memory is `r`, and the kernel's PML4 is `k`. -/
def HasRam (r : Ram) (k : ℕ) (c : LoadState) : Prop := c.ram = r ∧ c.sched.kernelPML4 = k

theorem onHeap_hasRam {m : Sys α} :
    Triple (fun _ => True) (HasRam r k) (onHeap m) fun _ => HasRam r k :=
  onHeap_keeps fun _ _ hc => hc

theorem loadSegment_hasRam {i : ℕ} :
    Triple (fun _ => True) (HasRam r k) (loadSegment copies file i)
      fun _ => HasRam (EitanOS.loadSegment file r (programHeaderEntry file i)) k := by
  refine Triple.get fun c₀ => Triple.ite (fun _ => ?_) fun _ => Triple.stop fun _ _ => True.intro
  rintro c ⟨rfl, rfl, rfl⟩
  exact ⟨rfl, rfl⟩

theorem loadSegments_hasRam :
    Triple (fun _ => True) (HasRam r k) (loadSegments copies file p l) fun b c =>
      b = true → ∃ r', EitanOS.loadSegments file r l = (true, r') ∧ HasRam r' k c := by
  induction l generalizing r with
  | nil => exact Triple.ret fun c hc _ => ⟨r, rfl, hc⟩
  | cons i l ih =>
    rw [loadSegments, EitanOS.loadSegments]
    refine Triple.ite (fun htype => ?_) fun htype => Triple.ite (fun hlow => ?_) fun hlow => ?_
    · rw [if_pos htype]
      exact ih
    · refine (Triple.trivial _ _).bind fun _ => (Triple.trivial _ _).bind fun _ =>
        (Triple.trivial _ _).bind fun _ => Triple.ret fun _ _ => nofun
    · rw [if_neg htype, if_neg hlow]
      exact loadSegment_hasRam.bind fun _ => ih

theorem mapStackAndHeap_hasRam :
    Triple (fun _ => True) (HasRam r k) mapStackAndHeap fun _ => HasRam (stackAndHeap r).2 k := by
  refine Triple.get fun c₀ => ?_
  refine Triple.bind (R := fun _ => HasRam (stackAndHeap r).2 k) ?_ fun _ => onHeap_hasRam
  rintro c ⟨rfl, rfl, rfl⟩
  exact ⟨rfl, rfl⟩

theorem loadKernelPML4_hasRam :
    Triple (fun _ => True) (HasRam r k) loadKernelPML4
      fun _ => HasRam { r with vmm := vmmSetPML4 r.vmm k } k := by
  refine onHeap_hasRam.bind fun _ => Triple.modify ?_
  rintro c ⟨rfl, rfl⟩
  exact ⟨rfl, rfl⟩

theorem addProcess_ram {entry : UInt64} :
    Triple (fun _ => True) (fun c => c.ram = r) (addProcess entry p) fun _ c => c.ram = r := by
  have hheap : ∀ {β : Type} {m : Sys β},
      Triple (fun _ => True) (fun c => c.ram = r) (onHeap m) fun _ c => c.ram = r :=
    onHeap_keeps fun _ _ hc => hc
  refine Triple.bind (R := fun _ c => c.ram = r) (Triple.modify fun _ hc => hc) fun _ => ?_
  refine hheap.bind fun process => hheap.bind fun _ => hheap.bind fun _ => ?_
  refine Triple.bind (R := fun _ c => c.ram = r) (Triple.modify fun _ hc => hc) fun _ => ?_
  exact Triple.modify fun _ hc => hc

theorem startProcess_hasRam {entry : UInt64} :
    Triple (fun _ => True) (HasRam r k) (startProcess entry p)
      fun _ c => c.ram = { (stackAndHeap r).2 with vmm := vmmSetPML4 (stackAndHeap r).2.vmm k } := by
  refine mapStackAndHeap_hasRam.bind fun _ => loadKernelPML4_hasRam.bind fun _ => ?_
  exact (addProcess_ram.pre fun c hc => hc.1).bind fun _ => Triple.ret fun c hc => hc

theorem loadInto_ram {v : Vmm} (hcheck : Sys.checkFileElf64 file = none)
    (hn : newSpace r.vmm k = some (p, v)) :
    Triple (fun _ => True) (HasRam r k) (loadInto copies file p v) fun b c =>
      b = true → EitanOS.programLoaderLoadElf64 r k file = some (p, c.ram) := by
  refine Triple.bind (R := fun _ => HasRam { r with vmm := v } k) ?_ fun _ => ?_
  · refine onHeap_hasRam.bind fun _ => Triple.modify ?_
    rintro c ⟨rfl, rfl⟩
    exact ⟨rfl, rfl⟩
  refine loadSegments_hasRam.bind fun b => Triple.ite (fun hb => ?_) fun hb =>
    Triple.ret fun _ _ => nofun
  intro c hc
  obtain ⟨r₁, hsegs, hc⟩ := hc hb
  refine (startProcess_hasRam.post fun b' c' hc' _ => ?_) c hc
  rw [hc', stackAndHeap]
  exact programLoaderLoadElf64_eq hcheck hn hsegs rfl rfl

end Loader

/-- **Where the load succeeds, the memory is what `programLoaderLoadElf64` makes of it.** -/
theorem load_ram {c' : LoadState}
    (h : exec (Loader.programLoaderLoadElf64 copies file) c = (some true, c')) :
    ∃ p, programLoaderLoadElf64 c.ram c.sched.kernelPML4 file = some (p, c'.ram) := by
  cases hcheck : Sys.checkFileElf64 file with
  | none =>
    have hspec : Triple (fun _ => True) (fun c₁ => c₁ = c) (Loader.loadChecked copies file)
        fun b c' => b = true →
          ∃ p, programLoaderLoadElf64 c.ram c.sched.kernelPML4 file = some (p, c'.ram) := by
      refine Loader.loadChecked_rule (fun _ _ _ => nofun) fun p v hn => ?_
      refine ((Loader.loadInto_ram hcheck hn).pre ?_).post fun b c' hload hb => ⟨p, hload hb⟩
      rintro c₁ rfl
      exact ⟨rfl, rfl⟩
    have hc := hspec c rfl
    rw [← Loader.exec_checkedHeader hcheck, h] at hc
    exact hc rfl
  | some msg =>
    have hr : Rejected file := .inl (by rw [hcheck]; nofun)
    exact absurd (congrArg Prod.fst h) hr.not_loaded

/-! ## A bad header and a segment at address 4096 -/

theorem charted_start (b : Boot) :
    Charted 0 [] [(kernelRegion.base, kernelRegion.size)] b.start := by
  refine ⟨rfl, ?_, .refl _⟩
  exact (HeapOk.init b.high kernelRegion).congr fun a h₁ _ => if_neg (half_le_of_kernel h₁)

theorem lowRule_smallMachine : lowRule.Holds smallMachine.vmm := by
  have hframes : ∀ f < 16, f < 2 ^ 28 := fun f hf => by omega
  refine ⟨hframes 0 (by decide), hframes, fun g i hp => ?_⟩
  exact hframes _ (leadsTo_smallMachine (if_pos hp))

theorem leavesNoTrace_zero_file :
    LeavesNoTrace (fun _ s => s) (fun _ => 0)
      ⟨rootedBoot.start, ⟨smallMachine.vmm, fun _ _ => 0⟩, smallSched, false⟩ := by
  refine (leavesNoTrace_iff (start_holds rootedBoot).ok fun _ => ?_).2.2
    ⟨"Invalid magic number", rfl, 0, [], _, charted_start rootedBoot, ?_⟩
  · exact ⟨by decide, directMap_smallMachine, lowRule_smallMachine⟩
  · exact messageFits_of_hasRoom (by decide) ⟨_, List.mem_singleton_self _, by decide⟩

/-- **A segment at address 4096.** The program is rejected, but `log_error` calls `malloc` with the new
PML4 loaded: its page of the allocator's data is not mapped, and the machine stops in a page fault. -/
theorem out_of_bounds_faults :
    Rejected (oneSegmentImage 0x1000) ∧
      (exec (Loader.programLoaderLoadElf64 (fun _ s => s) (oneSegmentImage 0x1000))
        ⟨rootedBoot.start, directMachine, kernelSched, true⟩).1 = none ∧
      ¬ LeavesNoTrace (fun _ s => s) (oneSegmentImage 0x1000)
        ⟨rootedBoot.start, directMachine, kernelSched, true⟩ := by
  have hstop : (exec (Loader.programLoaderLoadElf64 (fun _ s => s) (oneSegmentImage 0x1000))
      ⟨rootedBoot.start, directMachine, kernelSched, true⟩).1 = none := by
    decide +kernel
  refine ⟨.inr ⟨0, by decide +kernel, by decide +kernel, by decide +kernel⟩, hstop, ?_⟩
  rintro ⟨c', e, -⟩
  rw [e] at hstop
  cases hstop

end EitanOS
