import EitanOS.Memory.Ranges
import EitanOS.Process.Loader
import EitanOS.Process.Teardown

/-!
# Loading a program into memory (`process/program_loader.c`)

The memory side of `program_loader_load_elf64`: a new PML4, the segments copied through it, the stack
and the heap. `memcpy` and `memset` are the lists of their stores, and a page fault does not end the
load: the stores are those the code asks for.

* `loadSegments_eq`: the loop loads the PT_LOAD entries up to the first one out of bounds.
* `loadSegment_vmm`: the page tables do not depend on what is copied.
* `newSpace_ok`: the user half of the new PML4 is well formed, and empty.
-/

namespace EitanOS

open Bytes

/-- `elf64_program_header_entry`, without the two fields that are not read. -/
structure ProgramHeaderEntry where
  segmentType : UInt32
  flags : UInt32
  dataOffset : UInt64
  virtualAddress : UInt64
  fileSize : UInt64
  memorySize : UInt64
deriving DecidableEq

/-- Program header `i` of a file. -/
def programHeaderEntry (file : Buf) (i : ℕ) : ProgramHeaderEntry :=
  let start := Sys.programHeader file i
  ⟨le32 file start, le32 file (start + 4), le64 file (start + 8), le64 file (start + 16),
    le64 file (start + 32), le64 file (start + 40)⟩

/-- The page tables, and byte `o` of frame `f` as `bytes f o`. -/
structure Ram where
  vmm : Vmm
  bytes : ℕ → ℕ → UInt8

/-- Store a byte at a virtual address. At an address that is not mapped nothing is stored. -/
def Ram.store (r : Ram) (x : ℕ × UInt8) : Ram :=
  match translate r.vmm r.vmm.current x.1 with
  | none => r
  | some f => { r with
      bytes := Function.update r.bytes f (Function.update (r.bytes f) (x.1 % 4096) x.2) }

/-- The stores of `memcpy`. -/
def memcpyStores (dest : ℕ) (src : Buf) (size : ℕ) : List (ℕ × UInt8) :=
  (List.range size).map fun i => ((dest + i) % 2 ^ 64, src i)

/-- The stores of `memset`. -/
def memsetStores (dest : ℕ) (val : UInt8) (size : ℕ) : List (ℕ × UInt8) :=
  memcpyStores dest (fun _ => val) size

/-- `VMM_FLAGS_KERNEL_RW`. -/
def vmmFlagsKernelRw : ℕ := 2 ^ 63 + 3

/-- `VMM_FLAGS_KERNEL_ALL`. -/
def vmmFlagsKernelAll : ℕ := 3

/-- `VMM_FLAGS_USER_RW`. -/
def vmmFlagsUserRw : ℕ := 2 ^ 63 + 7

/-- `VMM_FLAGS_USER_CODE`. -/
def vmmFlagsUserCode : ℕ := 5

namespace ProgramHeaderEntry

variable (e : ProgramHeaderEntry)

/-- Where the segment starts. -/
def start : ℕ := e.virtualAddress.toNat

/-- `entry.virtual_address + entry.memory_size - 1`. -/
def last : ℕ := (e.virtualAddress + e.memorySize - 1).toNat

/-- How many pages `vmm_alloc` is asked for. -/
def amount : ℕ := pageAmount e.start e.last

/-- `vmm_alloc` for the segment. -/
def alloc (v : Vmm) : Bool × Vmm := vmmAlloc v e.start e.last vmmFlagsKernelAll

/-- `vmm_edit_pages` for the segment: the pages are read-only if it is executable. -/
def edit (v : Vmm) : Vmm :=
  (vmmEditPages v e.start e.last (if e.flags &&& 1 ≠ 0 then vmmFlagsUserCode else vmmFlagsUserRw)).2

/-- What is stored through `entry.virtual_address`: the file's part, and zeros after it. -/
def stores (file : Buf) : List (ℕ × UInt8) :=
  memcpyStores e.start (fun k => file ((e.dataOffset.toNat + k) % 2 ^ 64)) e.fileSize.toNat ++
    memsetStores ((e.start + e.fileSize.toNat) % 2 ^ 64) 0 (e.memorySize - e.fileSize).toNat

end ProgramHeaderEntry

/-- The body of the loop of `program_loader_load_elf64` for a segment. -/
def loadSegment (file : Buf) (r : Ram) (e : ProgramHeaderEntry) : Ram :=
  let r := (e.stores file).foldl Ram.store { r with vmm := (e.alloc r.vmm).2 }
  { r with vmm := e.edit r.vmm }

/-- The loop of `program_loader_load_elf64`; `false` when a segment is below
`PROCESS_MEMORY_START`. -/
def loadSegments (file : Buf) : Ram → List ℕ → Bool × Ram
  | r, [] => (true, r)
  | r, i :: l =>
    let e := programHeaderEntry file i
    -- 1 = PT_LOAD
    if e.segmentType ≠ 1 then loadSegments file r l
    else if e.start < Sys.processMemoryStart then (false, r)
    else loadSegments file (loadSegment file r e) l

/-- The entries among program headers `l` that are loaded: those of type PT_LOAD, up to the first one
out of bounds. -/
def segmentsOf (file : Buf) (l : List ℕ) : List ProgramHeaderEntry :=
  ((l.map (programHeaderEntry file)).filter (·.segmentType = 1)).takeWhile
    (Sys.processMemoryStart ≤ ·.start)

/-- The segments of a file that are loaded. -/
def loadedSegments (file : Buf) : List ProgramHeaderEntry :=
  segmentsOf file (List.range (Sys.programHeaderEntries file))

/-- `vmm_create_PML4`, `vmm_copy_kernel_PML4` and `vmm_set_PML4`. -/
def newSpace (v : Vmm) (kernel : ℕ) : Option (ℕ × Vmm) :=
  match vmmCreatePML4 v with
  | (none, _) => none
  | (some pml4, v) => some (pml4, vmmSetPML4 (vmmCopyKernelPML4 v pml4 kernel) pml4)

/-- `STACK_SIZE`. -/
def stackSize : ℕ := 0x4000

/-- `HEAP_SIZE`. -/
def heapSize : ℕ := userRegion.size

/-- A 64-bit word at an address, as stores. -/
def wordStores (dest value : ℕ) : List (ℕ × UInt8) :=
  memcpyStores dest (fun k => UInt8.ofNat (value / 256 ^ k)) 8

/-- `allocator_heap_init(heap_size, false)`. -/
def allocatorHeapInit (r : Ram) (size : ℕ) : Bool × Ram :=
  let data := heapStart - 4096
  let (success, v) := vmmAlloc r.vmm data (data + 4096 - 1) vmmFlagsKernelRw
  if success then
    let (success, v) := vmmAlloc v heapStart (heapStart + size - 1) vmmFlagsUserRw
    if success then
      -- `data->is_kernel`, `data->free_list`, the one free block, and `data->heap_size`
      (true, ([(data + 8, 0)] ++ wordStores data heapStart ++ wordStores heapStart size ++
        wordStores (heapStart + 8) 0 ++ wordStores (data + 16) size).foldl Ram.store
          { r with vmm := v })
    else (false, { r with vmm := (vmmUnmapPage v data).2 })
  else (false, { r with vmm := v })

/-- `program_loader_load_elf64` up to `process_scheduler_add_process`: the PML4 of the process, and
the memory. `none` when the file is not loaded. -/
def programLoaderLoadElf64 (r : Ram) (kernel : ℕ) (file : Buf) : Option (ℕ × Ram) :=
  if Sys.checkFileElf64 file = none then
    (newSpace r.vmm kernel).bind fun (pml4, v) =>
      let (success, r) := loadSegments file { r with vmm := v }
        (List.range (Sys.programHeaderEntries file))
      if success then
        let stack := stackStart.toNat
        let r := { r with vmm := (vmmAlloc r.vmm (stack - stackSize + 1) stack vmmFlagsUserRw).2 }
        let r := (allocatorHeapInit r heapSize).2
        some (pml4, { r with vmm := vmmSetPML4 r.vmm kernel })
      else none
  else none

variable {file : Buf} {r : Ram} {e : ProgramHeaderEntry} {l : List ℕ}

/-! ## The loop -/

theorem foldl_store_vmm (xs : List (ℕ × UInt8)) (r : Ram) : (xs.foldl Ram.store r).vmm = r.vmm := by
  induction xs generalizing r with
  | nil => rfl
  | cons x xs ih =>
    rw [List.foldl_cons, ih]
    unfold Ram.store
    split
    · rfl
    · rfl

/-- **The page tables do not depend on what is copied.** -/
theorem loadSegment_vmm : (loadSegment file r e).vmm = e.edit (e.alloc r.vmm).2 := by
  unfold loadSegment
  dsimp only
  rw [foldl_store_vmm]

/-- **What the loop loads.** -/
theorem loadSegments_eq :
    (loadSegments file r l).2 = (segmentsOf file l).foldl (loadSegment file) r := by
  induction l generalizing r with
  | nil => rfl
  | cons i l ih =>
    unfold loadSegments segmentsOf
    unfold segmentsOf at ih
    rw [List.map_cons]
    dsimp only
    split_ifs with h₁ h₂
    · rw [ih, List.filter_cons_of_neg (by simpa using h₁)]
    · rw [not_not] at h₁
      rw [List.filter_cons_of_pos (by simpa using h₁), List.takeWhile_cons_of_neg (by simpa using h₂)]
      rfl
    · rw [not_not] at h₁
      rw [ih, List.filter_cons_of_pos (by simpa using h₁),
        List.takeWhile_cons_of_pos (by simpa using h₂)]
      rfl

theorem start_of_mem_segmentsOf (h : e ∈ segmentsOf file l) : Sys.processMemoryStart ≤ e.start := by
  have := List.mem_takeWhile_imp h
  simpa using this

theorem start_pos_of_mem_segmentsOf (h : e ∈ segmentsOf file l) : 0 < e.start :=
  Nat.lt_of_lt_of_le (by decide) (start_of_mem_segmentsOf h)

/-! ## The new address space -/

variable {v₀ v : Vmm} {kernel pml4 : ℕ}

theorem newSpace_spec (hn : newSpace v₀ kernel = some (pml4, v)) :
    pml4 = (pmmAllocFrame v₀.pmm).1 ∧ v.pmm = (pmmAllocFrame v₀.pmm).2 ∧
      v.hhdmOffset = v₀.hhdmOffset ∧ v.current = pml4 ∧
      ∀ i < 256, v.frames pml4 i = .ofFlags 0 := by
  unfold newSpace vmmCreatePML4 at hn
  dsimp only at hn
  split_ifs at hn
  cases hn
  refine ⟨rfl, rfl, rfl, rfl, fun i hi => ?_⟩
  refine (frames_copyKernelPML4 _ _ _ _ _).trans ?_
  rw [if_neg (by omega), frames_zeroFrame, if_pos rfl]

theorem newSpace_isSome (hd : ∀ f < v.pmm.totalFrames, v.hhdm f ≠ 0) (hpos : 0 < v.pmm.totalFrames)
    (kernel : ℕ) : ∃ p v', p < v.pmm.totalFrames ∧ newSpace v kernel = some (p, v') := by
  have hlt : (pmmAllocFrame v.pmm).1 < v.pmm.totalFrames := by
    rcases (pmmAllocFrame_cases v.pmm).2 with ⟨e, -⟩ | ⟨-, hlt, -⟩
    · rwa [e]
    · exact hlt
  have hne : ({ v with pmm := (pmmAllocFrame v.pmm).2 } : Vmm).hhdm (pmmAllocFrame v.pmm).1 ≠ 0 :=
    hd _ hlt
  unfold newSpace vmmCreatePML4
  dsimp only
  rw [if_neg hne]
  exact ⟨_, _, hlt, rfl⟩

/-- **The new user half** is well formed, and nothing is mapped in it. -/
theorem newSpace_ok (hd : ∀ f < v₀.pmm.totalFrames, v₀.hhdm f ≠ 0)
    (hn : newSpace v₀ kernel = some (pml4, v)) (ho : v.pmm.outOfLowFrames = false) :
    LowHalfOk v ∧ ∀ q, view v q = none := by
  obtain ⟨hpml4, hpmm, hoff, hcur, hempty⟩ := newSpace_spec hn
  rw [hpmm] at ho
  obtain ⟨-, hlt, -, -, heq⟩ := pmmAllocFrame_spec ho
  have htotal : v.pmm.totalFrames = v₀.pmm.totalFrames := by
    rw [hpmm, heq, setFrame_totalFrames]
  refine ⟨.empty (fun i hi => ?_) ?_ ?_ fun f hf => ?_, fun q => ?_⟩
  · rw [hcur, hempty i hi]
    rfl
  · rw [hcur, hpml4, hpmm, heq, getFrame_setFrame, if_pos rfl]
  · rw [hcur, htotal, hpml4]
    exact hlt
  · rw [hhdm_congr hoff]
    exact hd f (htotal ▸ hf)
  · unfold view
    split_ifs with hq
    · have hidx : tableIndex 4 (q * 4096) < 256 := tableIndex_four_lt (by omega)
      unfold tableOf leadsTo
      rw [hcur, hempty _ hidx]
      rfl
    · rfl

end EitanOS
