import EitanOS.Process.Spills

/-!
# Who owns a block

Boot, then any sequence of file and run system calls. Every call works on the heap of its caller,
except for the run system call, which works on the kernel's. The pointer `file_table` outlives the
calls: `ensure_root` returns with the table loaded when the disk has a root, and the first call that
loads a table frees that one in the heap it works on. The machine does not follow what is stored behind
a block, so a run has to do without.

* `syscall_spec`: with no table left over, a call frees only blocks of the heap it works on and
  leaves no table.
* `syscall_dry`: a call that removes an entry of a directory only where that fits stores nothing behind
  a block.
* **`run_owned`**: every run of such calls keeps the heaps apart on a disk without a root, and where the
  first call that loads the table works on the kernel's heap.
* **`boot_table_misfreed`**: a disk with a root, and a process that asks whether a file exists.
-/

namespace EitanOS

open Prog Bytes Links

namespace Sys

/-- `ensure_root`. -/
def ensureRoot (junk : Junk) : Sys Unit := do
  let t ← loadFileTable junk
  match findRoot t with
  | some _ => return ()
  | none => do
    modify fun s => { s with drive := saveFileTable s.drive rootTable }
    freeFileTable

/-- `filesystem_init` after `identify_drive`. -/
def filesystemInit (junk : Junk) : Sys Unit := do
  modify fun s => { s with drive := initSuperblock s.drive }
  ensureRoot junk

end Sys

/-- What a machine boots with: its memory, its disk and the program it starts. -/
structure Boot where
  low : ℕ → Mem
  high : Mem
  drive : Drive
  junk : Junk
  shell : Buf
  paging : Sys.Paging

/-- The machine when the kernel's heap is set up. -/
def Boot.start (b : Boot) : Kernel where
  low := b.low
  high := (heapInit b.high kernelRegion.base kernelRegion.size).mem
  freeList := fun _ => kernelRegion.base
  isKernel := fun p => if p = 0 then some true else none
  space := 0
  currentPid := 0
  highestPid := 0
  fileTable := 0
  drive := b.drive
  log := []
  spilled := false

/-- The rest of `process_scheduler_init` and of `kernel_main`, up to its loop. -/
def boot (b : Boot) : Sys Unit := do
  let process ← malloc 216
  access process True
  Sys.filesystemInit b.junk
  let _ ← Sys.programLoaderLoadElf64 b.shell b.paging

/-- The run system call and the file system calls, 40 to 48. -/
inductive Request
  | run (path : List UInt8) (paging : Sys.Paging)
  | readFile (path : List UInt8) (dataOut : ℕ)
  | readFileMetadata (path : List UInt8)
  | fileExists (path : List UInt8)
  | writeFile (path : List UInt8) (data : Buf) (size : ℕ)
  | deleteFile (path : List UInt8)
  | createDirectory (path : List UInt8)
  | deleteDirectory (path : List UInt8)
  | moveFile (path newPath : List UInt8)
  | listDir (path : List UInt8)

/-- A system call: who makes it, and what uninitialised memory and the stack hold for it. -/
structure Call where
  pid : ℕ
  request : Request
  junk : Junk
  depth : ℕ

/-- The result of a call goes to the caller. -/
def answer {α : Type} (m : Sys α) : Sys Unit := do
  let _ ← m
  return ()

/-- The case of `syscall_handler_c`. -/
def Request.handle (junk : Junk) (depth : ℕ) : Request → Sys Unit
  | run path paging => answer (Sys.runProgram junk path paging)
  | readFile path dataOut => answer (Sys.readFile junk path dataOut)
  | readFileMetadata path => answer (Sys.readFileMetadata junk path)
  | fileExists path => answer (Sys.fileExists junk path)
  | writeFile path data size => answer (Sys.writeFile junk path data .file size)
  | deleteFile path => answer (Sys.deleteFile junk path)
  | createDirectory path => answer (Sys.createDirectory junk path)
  | deleteDirectory path => answer (Sys.deleteDirectory depth junk path)
  | moveFile path newPath => answer (Sys.moveFile junk path newPath)
  | listDir path => answer (Sys.listDir junk path)

/-- A process makes a system call. There is no run in which a process calls that does not exist. -/
def syscall (c : Call) : Sys Unit := do
  let s ← get
  if c.pid ≤ s.highestPid then do
    modify fun s => { s with space := c.pid, currentPid := c.pid }
    c.request.handle c.junk c.depth
  else failure

/-- **A run**: boot, then the calls in their order. The machine where it ends or stops. -/
def run (b : Boot) (calls : List Call) : Kernel :=
  (exec (do boot b; calls.forM syscall) b.start).2

/-! ## When the heaps stay apart -/

/-- The paths that are checked before the table is loaded. -/
def Request.paths : Request → List (List UInt8)
  | run path _ | readFile path _ | readFileMetadata path | fileExists path | writeFile path _ _
  | deleteFile path | createDirectory path | deleteDirectory path | listDir path => [path]
  | moveFile path newPath => [path, newPath]

/-- The call gets as far as loading the table. -/
def Call.loads (c : Call) : Bool := c.request.paths.all isValidPath

/-- The call loads the table into the kernel's heap. -/
def Call.inKernel (c : Call) : Bool := match c.request with
  | .run _ _ => true
  | _ => c.pid == 0

/-- The first call that loads the table does so in the kernel's heap. -/
def firstLoadInKernel : List Call → Bool
  | [] => true
  | c :: calls => if c.loads then c.inKernel else firstLoadInKernel calls

/-- The call comes to no removal on drive `d`, or to one that fits. For a path other than `/` this is so
wherever the sizes of directories are those of their entries; `/` must not have two or more. -/
def Request.Clean (junk : Junk) (depth : ℕ) (d : Drive) : Request → Prop
  | deleteFile path => ∀ i dir,
      resolvePath (junk.sub 1) d (loadFileTable (junk.sub 0) d) path = some i →
      resolvePath (junk.sub 2) d (loadFileTable (junk.sub 0) d) (splitPath path).1 = some dir →
      Sys.RemovesInside (junk.sub 3) ⟨d, loadFileTable (junk.sub 0) d⟩ dir i
  | deleteDirectory path => ∀ i t dir,
      resolvePath (junk.sub 1) d (loadFileTable (junk.sub 0) d) path = some i →
      deleteDirectoryEntriesRecursive d depth (junk.sub 2) (loadFileTable (junk.sub 0) d) i = some t →
      resolvePath (junk.sub 3) d t (splitPath path).1 = some dir →
      Sys.RemovesInside (junk.sub 4) ⟨d, t⟩ dir i
  | moveFile path _ => ∀ i dir,
      resolvePath (junk.sub 1) d (loadFileTable (junk.sub 0) d) path = some i →
      resolvePath (junk.sub 2) d (loadFileTable (junk.sub 0) d) (splitPath path).1 = some dir →
      Sys.RemovesInside (junk.sub 4) ⟨d, loadFileTable (junk.sub 0) d⟩ dir i
  | _ => True

/-- Every call is clean on the drive it finds, from machine `s` on. -/
def CleanFrom : Kernel → List Call → Prop
  | _, [] => True
  | s, c :: calls => c.request.Clean c.junk c.depth s.drive ∧
      ((exec (syscall c) s).1.isSome → CleanFrom (exec (syscall c) s).2 calls)

/-- `ensure_root` finds a root. -/
def Boot.hasRoot (b : Boot) : Bool :=
  (findRoot (loadFileTable b.junk (initSuperblock b.drive))).isSome

/-! ## Calls -/

section Calls

variable {sp t : ℕ} {held : List (ℕ × ℕ)} {junk : Junk} {depth : ℕ} {c : Call}

theorem answer_spec {α : Type} {P : Kernel → Prop} {Q : Kernel → Prop} {m : Sys α}
    (h : Triple KernelOk P m fun _ => Q) : Triple KernelOk P (answer m) fun _ => Q :=
  h.bind fun _ => Triple.ret fun _ hs => hs

theorem valid_of_paths {path : List UInt8} (h : [path].all isValidPath) : isValidPath path := by
  simpa using h

/-- **A call that is not a run call works on the heap of its caller.** -/
theorem Request.handle_spec {r : Request} (hr : ∀ path paging, r ≠ .run path paging)
    (hl : r.paths.all isValidPath) :
    Triple KernelOk (Sys.Loaded sp held) (r.handle junk depth) fun _ => Holds sp 0 held := by
  cases r with
  | run path paging => exact absurd rfl (hr path paging)
  | readFile path _ => exact answer_spec (Sys.readFile_spec (valid_of_paths hl))
  | readFileMetadata path => exact answer_spec (Sys.readFileMetadata_spec (valid_of_paths hl))
  | fileExists path => exact answer_spec (Sys.fileExists_spec (valid_of_paths hl))
  | writeFile path _ _ => exact answer_spec (Sys.writeFile_spec (valid_of_paths hl))
  | deleteFile path => exact answer_spec (Sys.deleteFile_spec (valid_of_paths hl))
  | createDirectory path => exact answer_spec (Sys.writeFile_spec (valid_of_paths hl))
  | deleteDirectory path => exact answer_spec (Sys.deleteDirectory_spec (valid_of_paths hl))
  | moveFile path newPath => exact answer_spec (Sys.moveFile_spec (by simpa [paths] using hl))
  | listDir path => exact answer_spec (Sys.listDir_spec (valid_of_paths hl))

theorem Request.handle_invalid {r : Request} (hr : ∀ path paging, r ≠ .run path paging)
    (hl : ¬ r.paths.all isValidPath) :
    Triple KernelOk (Holds sp t held) (r.handle junk depth) fun _ => Holds sp t held := by
  have hlook : ∀ {path : List UInt8}, ¬ [path].all isValidPath →
      Sys.lookup junk path = pure none := fun h => if_neg fun h' => h (by simpa using h')
  have hret : ∀ {α : Type} {path : List UInt8} {m : Sys α} {a : α}, ¬ [path].all isValidPath →
      Triple KernelOk (Holds sp t held) (answer (if isValidPath path then m else pure a))
        fun _ => Holds sp t held := fun h =>
    answer_spec (Triple.ite (fun h' => absurd (by simpa using h') h) fun _ => Triple.ret fun _ hs => hs)
  cases r with
  | run path paging => exact absurd rfl (hr path paging)
  | readFile path _ =>
    refine answer_spec (Triple.get fun s₀ => ?_)
    rw [hlook hl, pure_bind]
    exact Triple.ret fun _ hs => hs.2
  | readFileMetadata path =>
    refine answer_spec ?_
    rw [Sys.readFileMetadata, hlook hl, pure_bind]
    exact Triple.ret fun _ hs => hs
  | fileExists path =>
    refine answer_spec ?_
    rw [Sys.fileExists, hlook hl, pure_bind]
    exact Triple.ret fun _ hs => hs
  | writeFile path _ _ => exact hret hl
  | deleteFile path => exact hret hl
  | createDirectory path => exact hret hl
  | deleteDirectory path => exact hret hl
  | moveFile path newPath =>
    refine answer_spec (Triple.ite (fun h => absurd (by simpa [paths] using h) hl) fun _ => ?_)
    exact Triple.ret fun _ hs => hs
  | listDir path => exact hret hl

/-- Between calls: the table `t` is in the kernel's heap, or null. -/
def Idle (t : ℕ) (s : Kernel) : Prop := ∃ sp, Holds sp t [(0, t)] s

theorem idle_null {s : Kernel} (h : ∃ sp, Holds sp 0 [] s) : Idle 0 s := by
  obtain ⟨sp, h⟩ := h
  exact ⟨sp, h.null 0⟩

theorem syscall_enter {Q : Kernel → Prop}
    (h : Triple KernelOk (Holds c.pid t [(0, t)]) (c.request.handle c.junk c.depth) fun _ => Q) :
    Triple KernelOk (Idle t) (syscall c) fun _ => Q := by
  refine Triple.get fun s₀ => Triple.ite (fun hpid => ?_) fun _ => Triple.stop ?_
  · refine Triple.bind (R := fun _ => Holds c.pid t [(0, t)]) (Triple.modify ?_) fun _ => h
    rintro s ⟨rfl, sp, hs⟩
    exact ⟨⟨⟨hs.ok.kernel, hs.ok.process, hs.ok.heaps, hs.ok.owned⟩, hs.unused, hpid, hs.table,
      hs.live, hs.nodup⟩, rfl, hpid⟩
  · rintro s ⟨-, sp, hs⟩
    exact hs.ok

/-- **A call that loads the table**, on the heap the last one is in or with none left over. -/
theorem syscall_spec (hl : c.loads) (ht : t = 0 ∨ c.inKernel) :
    Triple KernelOk (Idle t) (syscall c) fun _ => Idle 0 := by
  refine syscall_enter ?_
  by_cases hr : ∃ path paging, c.request = .run path paging
  · obtain ⟨path, paging, hr⟩ := hr
    rw [Call.loads, hr] at hl
    rw [hr]
    exact answer_spec ((Sys.runProgram_spec (valid_of_paths hl)).post fun _ _ => idle_null)
  · have hr' : ∀ path paging, c.request ≠ .run path paging := fun path paging e =>
      hr ⟨path, paging, e⟩
    have h : Triple KernelOk (Sys.Loaded c.pid []) (c.request.handle c.junk c.depth)
        fun _ => Holds c.pid 0 [] := Request.handle_spec hr' hl
    refine (h.pre fun s hs => ?_).post fun _ _ hs => idle_null ⟨_, hs⟩
    rcases ht with rfl | hk
    · exact Sys.loaded_of_null hs.leak
    · have h0 : c.pid = 0 := by
        unfold Call.inKernel at hk
        split at hk
        · exact absurd ‹_› (hr' _ _)
        · simpa using hk
      rw [h0] at hs ⊢
      exact ⟨t, hs⟩

theorem syscall_invalid (hl : ¬ c.loads) :
    Triple KernelOk (Idle t) (syscall c) fun _ => Idle t := by
  refine syscall_enter ?_
  by_cases hr : ∃ path paging, c.request = .run path paging
  · obtain ⟨path, paging, hr⟩ := hr
    rw [Call.loads, hr] at hl
    rw [hr]
    exact answer_spec (Sys.runProgram_invalid fun h => hl (by simpa [Request.paths] using h))
  · refine (Request.handle_invalid (fun path paging e => hr ⟨path, paging, e⟩) hl).post ?_
    exact fun _ _ hs => ⟨_, hs⟩

/-- **Every sequence of calls keeps the invariant.** -/
theorem calls_spec {calls : List Call} (ht : t = 0 ∨ firstLoadInKernel calls) :
    Triple KernelOk (Idle t) (calls.forM syscall) fun _ => KernelOk := by
  induction calls generalizing t with
  | nil =>
    refine Triple.ret ?_
    rintro s ⟨sp, hs⟩
    exact hs.ok
  | cons c calls ih =>
    rw [firstLoadInKernel] at ht
    by_cases hl : c.loads
    · rw [if_pos hl] at ht
      exact (syscall_spec hl ht).bind fun _ => ih (Or.inl rfl)
    · rw [if_neg hl] at ht
      exact (syscall_invalid hl).bind fun _ => ih ht

end Calls

/-! ## Boot -/

theorem start_holds (b : Boot) : Holds 0 0 [] b.start := by
  refine ⟨⟨⟨rfl, fun p hp => ?_, fun o hk => ?_, owned_nil⟩, fun _ _ => rfl, le_rfl, rfl, ?_, ?_⟩,
    rfl, le_rfl⟩
  · show (if p = 0 then some true else none) ≠ some true
    rw [if_neg hp]
    simp
  · obtain rfl : o = 0 := by
      by_contra ho
      exact hk (if_neg ho)
    exact ⟨_, HeapOk.init b.high kernelRegion⟩
  · exact fun x hx => absurd hx List.not_mem_nil
  · exact List.nodup_nil

theorem ensureRoot_spec {junk : Junk} {d : Drive} :
    Triple KernelOk (fun s => Holds 0 0 [] s ∧ s.drive = d) (Sys.ensureRoot junk)
      fun _ s => ∃ t, Holds 0 t [(0, t)] s ∧ (findRoot (loadFileTable junk d) = none → t = 0) := by
  refine (Sys.loadFileTable_value.pre fun s hs => ⟨Sys.loaded_of_null hs.1, hs.2⟩).bind fun tab => ?_
  split
  · rename_i root hroot
    refine Triple.ret ?_
    rintro s ⟨rfl, t, hs⟩
    exact ⟨t, hs, fun h => absurd (hroot.symm.trans h) (by simp)⟩
  · refine (Sys.modifyDrive_loaded.pre fun s hs => hs.2).bind fun _ => ?_
    exact Sys.freeFileTable_spec.post fun _ _ hs => ⟨0, hs.null 0, fun _ => rfl⟩

theorem boot_spec (b : Boot) :
    Triple KernelOk (fun s => s = b.start) (boot b)
      fun _ s => ∃ t, Idle t s ∧ (b.hasRoot = false → t = 0) := by
  refine Triple.bind (R := fun _ s => Holds 0 0 [] s ∧ s.drive = b.drive) ?_ fun process => ?_
  · refine ((malloc_spec (by norm_num)).and malloc_drive).pre ?_ |>.post fun _ _ hs =>
      ⟨hs.1.leak, hs.2⟩
    rintro s rfl
    exact ⟨start_holds b, rfl⟩
  refine (access_keeps fun _ hs => hs.1.ok).bind fun _ => ?_
  refine Triple.bind (R := fun _ s => ∃ t, Holds 0 t [(0, t)] s ∧ (b.hasRoot = false → t = 0)) ?_
    fun _ => Triple.exists fun t => ?_
  · refine (Triple.modify (Q := fun _ s => Holds 0 0 [] s ∧ s.drive = initSuperblock b.drive)
      fun s hs => ⟨hs.1.setDrive _, congrArg initSuperblock hs.2⟩).bind fun _ => ?_
    refine ensureRoot_spec.post fun _ s ⟨t, hs, ht⟩ => ⟨t, hs, fun h => ht ?_⟩
    simpa [Boot.hasRoot] using h
  · rintro s ⟨hs, ht⟩
    exact (Sys.programLoaderLoadElf64_spec.bind fun _ => Triple.ret fun _ hs => ⟨t, ⟨0, hs⟩, ht⟩ :
      Triple KernelOk (Holds 0 t [(0, t)]) _ _) s hs

theorem run_ok {b : Boot} {calls : List Call}
    (h : b.hasRoot = false ∨ firstLoadInKernel calls = true) : KernelOk (run b calls) := by
  have ht : Triple KernelOk (fun s => s = b.start) (do boot b; calls.forM syscall)
      fun _ => KernelOk := by
    refine (boot_spec b).bind fun _ => Triple.exists fun t => ?_
    rintro s ⟨hs, ht⟩
    exact calls_spec (h.imp_left ht) s hs
  exact ht.final rfl

/-! ## Stores -/

theorem Request.handle_dry {r : Request} {junk : Junk} {depth : ℕ} {d : Drive}
    (h : r.Clean junk depth d) :
    Triple Unspilled (Dry d) (r.handle junk depth) fun _ => Unspilled := by
  have hdone {α : Type} {m : Sys α} (hm : Triple Unspilled (Dry d) m fun _ => Unspilled) :
      Triple Unspilled (Dry d) (answer m) fun _ => Unspilled := hm.bind fun _ => Triple.ret fun _ hs => hs
  have hsteady {α : Type} {m : Sys α} (hm : Steady m) :
      Triple Unspilled (Dry d) (answer m) fun _ => Unspilled := hdone ((hm d).post fun _ _ hs => hs.2)
  cases r with
  | run path paging => exact hsteady Sys.runProgram_steady
  | readFile path _ => exact hsteady Sys.readFile_steady
  | readFileMetadata path => exact hsteady Sys.readFileMetadata_steady
  | fileExists path => exact hsteady Sys.fileExists_steady
  | writeFile path _ _ => exact hdone (Sys.writeFile_unspilled.pre fun _ hs => hs.2)
  | deleteFile path => exact hdone (Sys.deleteFile_dry h)
  | createDirectory path => exact hdone (Sys.writeFile_unspilled.pre fun _ hs => hs.2)
  | deleteDirectory path => exact hdone (Sys.deleteDirectory_dry h)
  | moveFile path newPath => exact hdone (Sys.moveFile_dry h)
  | listDir path => exact hsteady Sys.listDir_steady

/-- **A clean call stores nothing behind a block.** -/
theorem syscall_dry {c : Call} {d : Drive} (h : c.request.Clean c.junk c.depth d) :
    Triple Unspilled (Dry d) (syscall c) fun _ => Unspilled := by
  refine Triple.get fun s₀ => Triple.pre (P := Dry d) ?_ fun _ hs => hs.2
  refine Triple.ite (fun _ => ?_) fun _ => Triple.stop fun _ hs => hs.2
  exact Triple.bind (R := fun _ => Dry d) (Triple.modify fun _ hs => hs) fun _ => Request.handle_dry h

theorem calls_unspilled {calls : List Call} {s : Kernel} (hs : Unspilled s) (h : CleanFrom s calls) :
    Unspilled (exec (calls.forM syscall) s).2 := by
  induction calls generalizing s with
  | nil => exact hs
  | cons c calls ih =>
    obtain ⟨hc, hrest⟩ := h
    have hcall := syscall_dry hc s ⟨rfl, hs⟩
    show Unspilled (exec (syscall c >>= fun _ => calls.forM syscall) s).2
    rcases e : exec (syscall c) s with ⟨_ | a, s'⟩
    · rw [exec_bind_none e]
      rwa [e] at hcall
    · rw [exec_bind_some e]
      rw [e] at hcall hrest
      exact ih hcall (hrest rfl)

theorem boot_unspilled (b : Boot) :
    Triple Unspilled (fun s => s = b.start) (boot b) fun _ => Unspilled := by
  have hstart : ∀ s, s = b.start → Unspilled s := by
    rintro s rfl
    rfl
  have hensure : Triple Unspilled Unspilled (Sys.ensureRoot b.junk) fun _ => Unspilled := by
    refine Sys.loadFileTable_steady.unspilled.bind fun t => ?_
    split
    · exact Triple.ret fun _ hs => hs
    · exact Sys.modifyDrive_unspilled.bind fun _ => Sys.freeFileTable_steady.unspilled
  refine ((malloc_steady 216).unspilled.pre hstart).bind fun process => ?_
  refine (access_steady process True).unspilled.bind fun _ => ?_
  refine Triple.bind (Sys.modifyDrive_unspilled.bind fun _ => hensure) fun _ => ?_
  exact Sys.programLoaderLoadElf64_steady.unspilled.bind fun _ => Triple.ret fun _ hs => hs

theorem run_unspilled {b : Boot} {calls : List Call} (h : CleanFrom (exec (boot b) b.start).2 calls) :
    Unspilled (run b calls) := by
  have hboot := (boot_unspilled b).final rfl
  unfold run
  rcases e : exec (boot b) b.start with ⟨_ | a, s⟩
  · rw [exec_bind_none e]
    rw [e] at hboot
    exact hboot
  · rw [exec_bind_some e]
    rw [e] at hboot h
    exact calls_unspilled hboot h

/-- An ELF file with no segments. -/
def emptyElf : Buf :=
  toBuf [0x7f, 0x45, 0x4c, 0x46, 2, 1, 0, 0, 0, 0, 0, 0, 0, 0, 0, 0, 2, 0, 62, 0, 1]

/-- Boot from a disk with a root that was made before. -/
def rootedBoot : Boot where
  low := fun _ _ => 0
  high := fun _ => 0
  drive := saveFileTable ⟨fun _ => 0, 1000⟩ rootTable
  junk := fun _ _ => 0
  shell := emptyElf
  paging := ⟨true, fun _ => true, true⟩

/-- Process 1 asks whether `/a` exists. -/
def askExists : Call := ⟨1, .fileExists [47, 97], fun _ _ => 0, 0⟩

/-- Process 1 deletes `/a`. -/
def askDelete : Call := ⟨1, .deleteFile [47, 97], fun _ _ => 0, 0⟩

/-- Process 1 runs `/a`. -/
def askRun : Call := ⟨1, .run [47, 97] ⟨true, fun _ => true, true⟩, fun _ _ => 0, 0⟩

theorem askDelete_clean {d : Drive} (h : resolvePath (askDelete.junk.sub 1) d
    (loadFileTable (askDelete.junk.sub 0) d) [47, 97] = none) :
    askDelete.request.Clean askDelete.junk askDelete.depth d := by
  intro i dir hi
  exact absurd (h.symm.trans hi) (by simp)

theorem rootedBoot_log : (run rootedBoot [askExists]).log =
    [.free 1 0x555555554010, .malloc 1 0x555555556838 2, .malloc 1 0x555555556820 8,
      .malloc 1 0x555555554010 10240, .free 1 0xffffc900000000f8,
      .malloc 0 0xffffc90000002908 216, .malloc 0 0xffffc900000000f8 10240,
      .malloc 0 0xffffc90000000010 216] := by
  decide +kernel

end EitanOS
