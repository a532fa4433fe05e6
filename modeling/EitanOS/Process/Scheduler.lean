import EitanOS.Lib.Ring
import Mathlib.Data.UInt

/-!
# The process scheduler (`process/process_scheduler.c`)

The `process_t` records live in blocks of the kernel heap and are linked in a ring through `next`.
A pointer is the address of its block. `blocks` are the blocks `malloc` gave to the scheduler and
`free` did not take back; `alive` is no data of the program: it lists the pids of the processes
that were added and not removed since.

The scans of the ring and the loop over killed processes take a bound `fuel` on the number of
their iterations and return `none` when it is used up. The page tables are not part of this model:
of the calls into `vmm.c`, `vmm_set_PML4` and `vmm_load_cpu` act on `currentPML4` and `cr3`.
-/

namespace EitanOS

open Links

/-- `cpu_state_t`: the register frame of an interrupt, in the order of its 23 words. -/
structure CpuState where
  gs : UInt64
  fs : UInt64
  r15 : UInt64
  r14 : UInt64
  r13 : UInt64
  r12 : UInt64
  r11 : UInt64
  r10 : UInt64
  r9 : UInt64
  r8 : UInt64
  rbp : UInt64
  rdi : UInt64
  rsi : UInt64
  rdx : UInt64
  rcx : UInt64
  rbx : UInt64
  rax : UInt64
  errorCode : UInt64
  rip : UInt64
  cs : UInt64
  rflags : UInt64
  rsp : UInt64
  ss : UInt64
deriving DecidableEq

/-- `(cpu_state_t){}`. -/
def CpuState.zero : CpuState :=
  ⟨0, 0, 0, 0, 0, 0, 0, 0, 0, 0, 0, 0, 0, 0, 0, 0, 0, 0, 0, 0, 0, 0, 0⟩

/-- `gdt_create_selector`. -/
def gdtCreateSelector (index ti rpl : UInt64) : UInt64 := index <<< 3 ||| ti <<< 2 ||| rpl

/-- `STACK_START`. -/
def stackStart : UInt64 := 0x00007fffffffffff

/-- The registers `process_scheduler_add_process` gives a new process. -/
def initialRegs (entry : UInt64) (isKernelLevel : Bool) : CpuState :=
  let codeSegment := if isKernelLevel then gdtCreateSelector 1 0 0 else gdtCreateSelector 3 0 3
  let dataSegment := if isKernelLevel then gdtCreateSelector 2 0 0 else gdtCreateSelector 4 0 3
  ⟨dataSegment, dataSegment, 0, 0, 0, 0, 0, 0, 0, 0, 0, 0, 0, 0, 0, 0, 0, 0,
    entry, codeSegment, 0x202, stackStart, dataSegment⟩

/-- `process_t`. -/
structure Process where
  pid : UInt32
  regs : CpuState
  pendingSignals : UInt32
  pml4 : ℕ
  next : ℕ

/-- `SIG_ABRT`. -/
def sigAbrt : UInt32 := (1 : UInt32) <<< 5

/-- `SIG_KILL`. -/
def sigKill : UInt32 := (1 : UInt32) <<< 8

/-- The scheduler's data, and the address space in use. -/
structure Sched where
  procs : ℕ → Process
  blocks : List ℕ
  highestPid : UInt32
  current : ℕ
  kernel : ℕ
  currentPML4 : ℕ
  cr3 : ℕ
  alive : List UInt32

namespace Sched

variable (s : Sched)

/-- `p->next`, for all `p`. -/
def links (p : ℕ) : ℕ := (s.procs p).next

/-- `p->pid`, for all `p`. -/
def pids (p : ℕ) : UInt32 := (s.procs p).pid

/-- Assign to fields of `*p`. -/
def modify (p : ℕ) (f : Process → Process) : Sched :=
  { s with procs := Function.update s.procs p (f (s.procs p)) }

/-- `vmm_set_PML4(t); vmm_load_cpu();` -/
def loadPML4 (t : ℕ) : Sched := { s with currentPML4 := t, cr3 := t }

/-- `process_scheduler_get_kernel_PML4`. -/
def kernelPML4 : ℕ := (s.procs s.kernel).pml4

/-- `process_scheduler_get_current_PML4`. -/
def processPML4 : ℕ := (s.procs s.current).pml4

end Sched

/-- `process_scheduler_init`, where `malloc` returns `p`. -/
def schedInit (procs : ℕ → Process) (p kernelPML4 : ℕ) : Sched where
  procs := Function.update procs p ⟨0, CpuState.zero, 0, kernelPML4, p⟩
  blocks := [p]
  highestPid := 0
  current := p
  kernel := p
  currentPML4 := kernelPML4
  cr3 := kernelPML4
  alive := []

/-- `process_scheduler_add_process`, where `malloc` returns `p`: the new state and the pid. -/
def addProcess (s : Sched) (p : ℕ) (entry : UInt64) (pml4 : ℕ) (isKernelLevel : Bool) :
    Sched × UInt32 :=
  let pid := s.highestPid + 1
  let new : Process := ⟨pid, initialRegs entry isKernelLevel, 0, pml4, s.links s.current⟩
  let s := { s with highestPid := pid, blocks := p :: s.blocks, alive := pid :: s.alive }
  ((s.modify p fun _ => new).modify s.current fun c => { c with next := p }, pid)

/-- `find_process`. -/
def findProcess (fuel : ℕ) (s : Sched) (pid : UInt32) : Option (Option ℕ) :=
  find s.links (fun p => s.pids p == pid) s.current fuel

/-- `find_previous_process`. -/
def findPreviousProcess (fuel : ℕ) (s : Sched) (pid : UInt32) : Option (Option ℕ) :=
  find s.links (fun p => s.pids (s.links p) == pid) s.current fuel

/-- `process_scheduler_remove_process` from the point where `prev_process` is known. -/
def unlinkProcess (s : Sched) (prev : ℕ) : Sched :=
  let process := s.links prev
  let nextNext := s.links process
  -- `allocator_unmap_heap()` runs in the address space of the process
  let s := s.loadPML4 (s.procs process).pml4
  -- `vmm_unmap_PML4(process->PML4)` runs in the kernel's
  let s := s.loadPML4 s.kernelPML4
  let s := { s with blocks := s.blocks.erase process, alive := s.alive.erase (s.pids process) }
  { s.modify prev fun p => { p with next := nextNext } with current := nextNext }

/-- `process_scheduler_remove_process`. -/
def removeProcess (fuel : ℕ) (s : Sched) (pid : UInt32) : Option (Sched × Bool) :=
  if pid = 0 then some (s, false)
  else (findPreviousProcess fuel s pid).map fun
    | none => (s, false)
    | some prev => (unlinkProcess s prev, true)

/-- `process_scheduler_exit`: the new state and the frame it leaves in `current_regs`. -/
def schedExit (fuel : ℕ) (s : Sched) : Option (Sched × CpuState) :=
  (removeProcess fuel s (s.pids s.current)).map fun (s, _) => (s, (s.procs s.current).regs)

/-- `process_scheduler_send_signals`. -/
def sendSignals (fuel : ℕ) (s : Sched) (pid signals : UInt32) : Option Sched :=
  (findProcess fuel s pid).map fun
    | none => s
    | some p => s.modify p fun q => { q with pendingSignals := q.pendingSignals ||| signals }

/-- `if (sigs & sig) { if (process_scheduler_remove_process(process->pid)) return true; }` -/
def killOn (fuel : ℕ) (s : Sched) (p : ℕ) (sigs sig : UInt32) : Option (Sched × Bool) :=
  if sigs &&& sig ≠ 0 then removeProcess fuel s (s.pids p) else some (s, false)

/-- `handle_signals`: of its 32 cases, all but `SIG_ABRT` and `SIG_KILL` are empty. -/
def handleSignals (fuel : ℕ) (s : Sched) (p : ℕ) : Option (Sched × Bool) :=
  let sigs := (s.procs p).pendingSignals
  let s := s.modify p fun q => { q with pendingSignals := 0 }
  (killOn fuel s p sigs sigAbrt).bind fun (s, killed) =>
    if killed then some (s, true) else killOn fuel s p sigs sigKill

/-- The loop of `process_scheduler_next_process`, over the processes its signals kill. -/
def nextLoop (fuel : ℕ) : ℕ → Sched → Option Sched
  | 0, _ => none
  | n + 1, s =>
    let s := { s with current := s.links s.current }
    (handleSignals fuel s s.current).bind fun (s, killed) =>
      if killed then nextLoop fuel n s else some s

/-- `process_scheduler_next_process` on the frame `regs`: the new state and frame. -/
def nextProcess (fuel : ℕ) (s : Sched) (regs : CpuState) : Option (Sched × CpuState) :=
  let s := s.modify s.current fun p => { p with regs := regs }
  let s := s.loadPML4 s.kernelPML4
  (nextLoop fuel fuel s).map fun s => (s.loadPML4 s.processPML4, (s.procs s.current).regs)

end EitanOS
