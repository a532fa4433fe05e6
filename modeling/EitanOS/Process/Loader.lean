import EitanOS.Disk.HeapUse

/-!
# Loading a program (`process/program_loader.c`)

`program_loader_load_elf64` checks the header of an ELF file, copies its segments into a new address
space, sets up a heap there and adds a process. What the page tables have room for is an input
(`Paging`), and the segments are taken to lie outside the kernel's half and the allocator's pages.

* **`programLoaderLoadElf64_spec`**: on every return the kernel's address space is loaded again, and
  every block is back in the heap it came from.
-/

namespace EitanOS.Sys

open Prog Bytes

/-- What the page tables allow while a program is loaded. -/
structure Paging where
  /-- `vmm_create_PML4` succeeds. -/
  pml4 : Bool
  /-- The pages of segment `i` can be mapped, and copying it does not fault. -/
  segment : ℕ → Bool
  /-- `allocator_heap_init` succeeds. -/
  heap : Bool

/-- The loop of `str_concats`, with the string so far and its length. `str_concat` starts with
`strlen`, and returns null when there is no memory. -/
def strConcatsLoop : ℕ → ℕ → List String → Sys ℕ
  | result, _, [] => return result
  | result, length, str :: strs => do
    access result True
    let temp ← malloc (length + str.length + 1)
    free result
    strConcatsLoop temp (length + str.length) strs

/-- `str_concats`. -/
def strConcats (str : String) (strs : List String) : Sys ℕ := do
  let result ← malloc (str.length + 1)
  access result True
  strConcatsLoop result str.length strs

/-- `log_error`. -/
def logError (msg : String) : Sys Unit := do
  let finalMsg ← strConcats "[program_loader] failed to load elf program: " [msg, "\n"]
  access finalMsg True
  free finalMsg

/-- `check_file_elf64`: the error it logs. -/
def checkFileElf64 (file : Buf) : Option String :=
  if le32 file 0 ≠ 0x464C457F then some "Invalid magic number"
  else if file 4 ≠ 2 then some "Invalid class (Not 64-bit)"
  else if file 5 ≠ 1 then some "Invalid endianness"
  else if file 7 ≠ 0 then some "Invalid abi"
  else if le16 file 16 ≠ 2 then some "Invalid type"
  else if le16 file 18 ≠ 62 then some "Invalid instruction set (Not x86-64)"
  else if le32 file 20 ≠ 1 then some "Invalid elf version"
  else none

/-- `header.program_header_entries`. -/
def programHeaderEntries (file : Buf) : ℕ := (le16 file 56).toNat

/-- Where program header `i` starts in the file. The product is an `int`, and negative from `2 ^ 31`
on. -/
def programHeader (file : Buf) (i : ℕ) : ℕ :=
  let product := i * (le16 file 54).toNat
  ((le64 file 32).toNat + if product < 2 ^ 31 then product else product + (2 ^ 64 - 2 ^ 32)) % 2 ^ 64

/-- `PROCESS_MEMORY_START`. -/
def processMemoryStart : ℕ := 0x2000000

/-- A new, empty address space is created and loaded. It becomes that of the next pid. -/
def enterNewSpace : Sys Unit := modify fun s =>
  { s with
    space := s.highestPid + 1
    isKernel := Function.update s.isKernel (s.highestPid + 1) none }

/-- The loop of `program_loader_load_elf64` over the program headers. -/
def loadSegments (file : Buf) (segment : ℕ → Bool) : List ℕ → Sys Bool
  | [] => return true
  | i :: l =>
    if le32 file (programHeader file i) ≠ 1 then loadSegments file segment l
    else if (le64 file (programHeader file i + 16)).toNat < processMemoryStart then do
      logError "Program wants to load out of bounds"
      setSpace 0
      return false
    else if segment i then loadSegments file segment l
    else failure

/-- `allocator_heap_init(HEAP_SIZE, false)`. -/
def allocatorHeapInit (success : Bool) : Sys Unit :=
  if success then modify fun s =>
    { s.store s.space (heapInit s.view userRegion.base userRegion.size) with
      isKernel := Function.update s.isKernel s.space (some false) }
  else pure ()

/-- `process_scheduler_add_process`: the heap side of it. -/
def addProcess : Sys Unit := do
  let process ← malloc 216
  access process True
  modify fun s => { s with highestPid := s.highestPid + 1 }

/-- `program_loader_load_elf64`. -/
def programLoaderLoadElf64 (file : Buf) (paging : Paging) : Sys Bool :=
  match checkFileElf64 file with
  | some msg => do
    logError msg
    return false
  | none =>
    if paging.pml4 then do
      enterNewSpace
      if ← loadSegments file paging.segment (List.range (programHeaderEntries file)) then do
        allocatorHeapInit paging.heap
        setSpace 0
        addProcess
        return true
      else return false
    else do
      logError "Failed to create PML4"
      return false

/-- The part of the run system call that works in the kernel's address space. When the file cannot
be read, nothing frees the block for it. -/
def loadProgram (junk : Junk) (path : List UInt8) (paging : Paging) : Sys Bool := do
  match ← readFileMetadata (junk.sub 0) path with
  | none => return false
  | some e => do
    let data ← malloc e.size.toNat
    match ← readFile (junk.sub 1) path data with
    | none => return true
    | some file => do
      access data True
      let success ← programLoaderLoadElf64 file paging
      free data
      return success

/-- The run system call. Past 1001 characters `strlen` is `-1`: `malloc_kernel(0)` returns null, and
the copy of the path faults. -/
def runProgram (junk : Junk) (path : List UInt8) (paging : Paging) : Sys Bool :=
  if path.length ≤ 1001 then do
    let copy ← mallocKernel (path.length + 1)
    access copy True
    setSpace 0
    let success ← loadProgram junk path paging
    freeKernel copy
    let s ← get
    setSpace s.currentPid
    return success
  else failure

/-! ## Specifications -/

variable {sp t : ℕ} {held : List (ℕ × ℕ)} {file : Buf} {paging : Paging} {junk : Junk}
  {path : List UInt8}

theorem strConcatsLoop_spec {result length : ℕ} {strs : List String}
    (h : length + (strs.map String.length).sum ≤ 1000) :
    Triple KernelOk (Holds sp t ((sp, result) :: held)) (strConcatsLoop result length strs)
      fun p => Holds sp t ((sp, p) :: held) := by
  induction strs generalizing result length with
  | nil => exact Triple.ret fun _ hs => hs
  | cons str strs ih =>
    rw [List.map_cons, List.sum_cons] at h
    refine access_spec.bind fun _ => (malloc_spec (by omega)).bind fun temp => ?_
    exact (free_spec.pre fun _ hs => hs.swap).bind fun _ => ih (by omega)

theorem messageStart_length : "[program_loader] failed to load elf program: ".length = 45 := by decide

theorem message_length {msg : String} (h : msg.length ≤ 100) :
    45 + ([msg, "\n"].map String.length).sum ≤ 200 := by
  have hend : "\n".length = 1 := by decide
  simp only [List.map_cons, List.map_nil, List.sum_cons, List.sum_nil, hend]
  omega

theorem logError_spec {msg : String} (h : msg.length ≤ 100) :
    Triple KernelOk (Holds sp t held) (logError msg) fun _ => Holds sp t held := by
  have hlen := message_length h
  unfold logError strConcats
  rw [messageStart_length]
  refine Triple.bind (R := fun p => Holds sp t ((sp, p) :: held)) ?_ fun finalMsg => ?_
  · refine (malloc_spec (by omega)).bind fun result => access_spec.bind fun _ => ?_
    exact strConcatsLoop_spec (by omega)
  · exact access_spec.bind fun _ => free_spec

theorem checkFileElf64_length {msg : String} (h : checkFileElf64 file = some msg) :
    msg.length ≤ 100 := by
  unfold checkFileElf64 at h
  split_ifs at h <;> (obtain rfl := Option.some.inj h; decide)

/-! ## The new address space -/

/-- A new address space is loaded that has no heap. -/
def InNewSpace (t : ℕ) (held : List (ℕ × ℕ)) (s : Kernel) : Prop :=
  Keeps t held s ∧ s.space = s.highestPid + 1 ∧ s.isKernel s.space = none

theorem enterNewSpace_spec :
    Triple KernelOk (Holds sp t held) enterNewSpace fun _ => InNewSpace t held := by
  refine Triple.modify fun s hs => ?_
  have hok := hs.ok.setData (Nat.succ_ne_zero s.highestPid) (b := none) (by simp)
    fun h => absurd rfl h
  exact ⟨⟨⟨hok.kernel, hok.process, hok.heaps, hok.owned⟩, hs.unused, hs.current_le, hs.table,
    hs.live, hs.nodup⟩, rfl, Function.update_self _ _ _⟩

theorem logError_stops {msg : String} :
    Triple KernelOk (fun s => KernelOk s ∧ s.isKernel s.space = none) (logError msg)
      fun _ _ => False := by
  have hfalse : ∀ {α : Type} (m : Sys α) (Q : α → Kernel → Prop),
      Triple KernelOk (fun _ => False) m Q := fun _ _ _ hs => hs.elim
  refine Triple.bind (R := fun _ _ => False) ?_ fun _ => hfalse _ _
  exact malloc_stops.bind fun _ => hfalse _ _

theorem loadSegments_spec {segment : ℕ → Bool} {l : List ℕ} :
    Triple KernelOk (InNewSpace t held) (loadSegments file segment l)
      fun success s => success = true ∧ InNewSpace t held s := by
  induction l with
  | nil => exact Triple.ret fun _ hs => ⟨rfl, hs⟩
  | cons i l ih =>
    rw [loadSegments]
    refine Triple.ite (fun _ => ih) fun _ => Triple.ite (fun _ => ?_) fun _ => ?_
    · refine (logError_stops.pre fun s hs => ?_).bind fun _ _ hs => hs.elim
      exact ⟨hs.1.ok, hs.2.2⟩
    · exact Triple.ite (fun _ => ih) fun _ => Triple.stop fun s hs => hs.1.ok

theorem allocatorHeapInit_spec {success : Bool} :
    Triple KernelOk (InNewSpace t held) (allocatorHeapInit success) fun _ => Keeps t held := by
  refine Triple.ite (fun _ => Triple.modify fun s ⟨hs, hsp, _⟩ => ?_) fun _ =>
    Triple.ret fun s hs => hs.1
  have hne : s.space ≠ 0 := by omega
  have hreg : region s.space = userRegion := if_neg hne
  have hheap : HeapOk (region s.space)
      ⟨heapInit s.view userRegion.base userRegion.size, liveBlocks s.space s.log⟩
      [(userRegion.base, userRegion.size)] := by
    rw [hreg, hs.unused s.space (by omega)]
    exact HeapOk.init s.view userRegion
  have hstore := hs.ok.store (Or.inr rfl) ⟨_, hheap⟩
    (fun a ha => heapInit_outside s.view userRegion (hreg ▸ ha)) (fun _ _ => rfl) hs.ok.owned
  exact ⟨hstore.setData hne (by simp) fun _ => ⟨_, hheap.stored (Or.inr rfl)⟩, hs.unused,
    hs.current_le, hs.table, hs.live, hs.nodup⟩

theorem addProcess_spec :
    Triple KernelOk (Holds 0 t held) addProcess fun _ => Holds 0 t held := by
  refine ((malloc_spec (by norm_num)).post fun _ _ hs => hs.leak).bind fun process => ?_
  refine access_spec.bind fun _ => Triple.modify fun s hs => ?_
  exact ⟨⟨⟨hs.ok.kernel, hs.ok.process, hs.ok.heaps, hs.ok.owned⟩,
    fun o ho => hs.unused o (Nat.lt_of_succ_lt ho), Nat.le_succ_of_le hs.current_le, hs.table,
    hs.live, hs.nodup⟩, hs.space, Nat.zero_le _⟩

/-- **Loading a program leaves the heaps in order**, on every return. -/
theorem programLoaderLoadElf64_spec :
    Triple KernelOk (Holds 0 t held) (programLoaderLoadElf64 file paging)
      fun _ => Holds 0 t held := by
  unfold programLoaderLoadElf64
  split
  · rename_i msg e
    exact (logError_spec (checkFileElf64_length e)).bind fun _ => Triple.ret fun _ hs => hs
  · refine Triple.ite (fun _ => enterNewSpace_spec.bind fun _ => ?_) fun _ => ?_
    · refine loadSegments_spec.bind fun success => Triple.ite (fun _ => ?_) fun hf => ?_
      · refine (allocatorHeapInit_spec.pre fun _ hs => hs.2).bind fun _ => ?_
        refine Triple.bind (R := fun _ => Holds 0 t held) ?_ fun _ => ?_
        · exact Triple.modify fun s hs => hs.setSpace (Nat.zero_le _)
        · exact addProcess_spec.bind fun _ => Triple.ret fun _ hs => hs
      · exact fun s hs => absurd hs.1 hf
    · exact (logError_spec (by decide)).bind fun _ => Triple.ret fun _ hs => hs

/-! ## The run system call -/

theorem loadProgram_spec (hp : isValidPath path) :
    Triple KernelOk (Loaded 0 held) (loadProgram junk path paging) fun _ => Holds 0 0 held := by
  refine (readFileMetadata_spec hp).bind fun e => ?_
  cases e with
  | none => exact Triple.ret fun _ hs => hs
  | some e =>
    have hsize := e.size.toNat_lt
    refine (malloc_spec (by omega)).bind fun data => ?_
    refine ((readFile_spec hp).pre fun _ => loaded_of_null).bind fun r => ?_
    cases r with
    | none => exact Triple.ret fun _ hs => hs.leak
    | some file =>
      refine access_spec.bind fun _ => programLoaderLoadElf64_spec.bind fun success => ?_
      exact free_spec.bind fun _ => Triple.ret fun _ hs => hs

theorem loadProgram_invalid (hp : ¬ isValidPath path) :
    loadProgram junk path paging = pure false := by
  rw [loadProgram, readFileMetadata, lookup, if_neg hp]
  simp

theorem setCurrentSpace_spec {success : Bool} :
    Triple KernelOk (Holds 0 t held) (do let s ← get; setSpace s.currentPid; return success)
      fun _ s => ∃ sp, Holds sp t held s := by
  refine Triple.get fun s₀ => ?_
  refine Triple.bind (R := fun _ s => ∃ sp, Holds sp t held s) ?_ fun _ => Triple.ret fun _ hs => hs
  refine Triple.modify ?_
  rintro s ⟨rfl, hs⟩
  exact ⟨_, hs.toKeeps.setSpace hs.current_le⟩

/-- **The run system call**, with a table in the kernel's heap or none. -/
theorem runProgram_spec (hp : isValidPath path) :
    Triple KernelOk (Holds sp t ((0, t) :: held)) (runProgram junk path paging)
      fun _ s => ∃ sp, Holds sp 0 held s := by
  have hlen := length_of_valid hp
  rw [runProgram, if_pos hlen]
  refine (mallocKernel_spec (by omega)).bind fun copy => access_spec.bind fun _ => ?_
  refine Triple.bind (R := fun _ => Loaded 0 ((0, copy) :: held)) ?_ fun _ => ?_
  · exact Triple.modify fun s hs => ⟨t, (hs.toKeeps.setSpace (Nat.zero_le _)).swap⟩
  · refine (loadProgram_spec hp).bind fun success => freeKernel_spec.bind fun _ => ?_
    exact setCurrentSpace_spec

theorem runProgram_invalid (hp : ¬ isValidPath path) :
    Triple KernelOk (Holds sp t held) (runProgram junk path paging)
      fun _ s => ∃ sp, Holds sp t held s := by
  refine Triple.ite (fun hlen => ?_) fun _ => Triple.stop fun s hs => hs.ok
  refine (mallocKernel_spec (by omega)).bind fun copy => access_spec.bind fun _ => ?_
  refine Triple.bind (R := fun _ => Holds 0 t ((0, copy) :: held)) ?_ fun _ => ?_
  · exact Triple.modify fun s hs => hs.toKeeps.setSpace (Nat.zero_le _)
  · rw [loadProgram_invalid hp]
    exact (Triple.ret fun _ hs => hs).bind fun success => freeKernel_spec.bind fun _ =>
      setCurrentSpace_spec

end EitanOS.Sys
