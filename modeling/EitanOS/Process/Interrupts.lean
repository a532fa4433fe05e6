import EitanOS.Process.Moves

/-!
# Interrupt and syscall handlers (`process/interrupts.c`)

A handler runs on the frame of the interrupted process and returns with a frame, possibly of
another process. `Handles` describes one return of a handler and `Run` the runs of the machine:
timer interrupts and syscalls in any order.

* The syscalls that neither switch processes nor address spaces differ only in what they report in
  `rax`; what the file system reports is arbitrary.
* `process_scheduler_add_process` enables interrupts, so a run syscall that has loaded its program
  can be interrupted until it returns: it is two steps, and `running` holds the processes in
  between.
* `saved` is no data of the program: it records, for the process in each block, the frame it was
  last switched out with, or its initial frame.
-/

namespace EitanOS

/-- `irq_handler_c`: only the timer's interrupt switches processes. -/
def irqHandlerC (fuel : ℕ) (intNo : UInt32) (s : Sched) (regs : CpuState) :
    Option (Sched × CpuState) :=
  if intNo < 32 ∨ 47 < intNo then some (s, regs)
  else if intNo - 32 = 0 then nextProcess fuel s regs
  else some (s, regs)

/-- The vector of the timer. -/
def timerVector : UInt32 := 32

/-- `current_regs[16] = success;` -/
def CpuState.setRax (regs : CpuState) (success : UInt64) : CpuState := { regs with rax := success }

/-- What `success` is after the `switch`, for the syscalls that leave the scheduler alone:
`reported` for those of the file system that report, 1 for all others. -/
def successOf (id reported : UInt64) : UInt64 :=
  if id = 40 ∨ id = 41 ∨ (43 ≤ id ∧ id ≤ 47) then reported else 1

/-- `syscall_handler_c`, but for the run syscall: `rax` holds the syscall and `rbx` its first
argument. -/
def syscallHandlerC (fuel : ℕ) (s : Sched) (regs : CpuState) (reported : UInt64) :
    Option (Sched × CpuState) :=
  if regs.rax = 0 then
    (schedExit fuel (s.loadPML4 s.kernelPML4)).map fun (s, r) => (s, r.setRax 1)
  else if regs.rax = 2 then
    (sendSignals fuel s regs.rbx.toUInt32 sigKill).map fun s => (s, regs.setRax 1)
  else some (s, regs.setRax (successOf regs.rax reported))

/-- The run syscall up to the end of `program_loader_load_elf64`, when it adds the process of block
`p`: the kernel's address space is loaded. -/
def runAdd (s : Sched) (p : ℕ) (entry : UInt64) (pml4 : ℕ) : Sched :=
  (addProcess (s.loadPML4 s.kernelPML4) p entry pml4 false).1

/-- The rest of the run syscall. -/
def runReturn (s : Sched) : Sched := s.loadPML4 s.processPML4

/-- The machine: the scheduler's state with the records of the run. -/
structure Machine where
  sched : Sched
  saved : ℕ → CpuState
  running : List ℕ

/-- The machine after `process_scheduler_init`. -/
def machineInit (procs : ℕ → Process) (p kernelPML4 : ℕ) : Machine :=
  ⟨schedInit procs p kernelPML4, fun q => ((schedInit procs p kernelPML4).procs q).regs, []⟩

namespace Machine

/-- The machine when a handler leaves the scheduler in state `s`. -/
def toSched (m : Machine) (s : Sched) : Machine :=
  { m with sched := s, running := m.running.filter (· ∈ s.blocks) }

/-- Record the frame the current process is switched out with. -/
def switchOut (m : Machine) (regs : CpuState) : Machine :=
  { m with saved := Function.update m.saved m.sched.current regs }

/-- Record the initial frame of the process that is added in block `p`. -/
def added (m : Machine) (s : Sched) (p : ℕ) (entry : UInt64) : Machine :=
  { m with sched := s, saved := Function.update m.saved p (initialRegs entry false) }

end Machine

/-- What a handler was entered for. -/
inductive Event
  | timer
  | syscall
  | runReturn
deriving DecidableEq

/-- One return of a handler: the machine and the frame at its entry, and at its exit. -/
structure Return where
  event : Event
  pre : Machine
  frame : CpuState
  post : Machine
  out : CpuState

/-- **The returns the handlers can make.** -/
inductive Handles : Return → Prop
  | timer {fuel : ℕ} {m : Machine} {f out : CpuState} {s : Sched}
      (e : irqHandlerC fuel timerVector m.sched f = some (s, out)) :
      Handles ⟨.timer, m, f, (m.switchOut f).toSched s, out⟩
  | syscall {fuel : ℕ} {m : Machine} {f out : CpuState} {s : Sched} {reported : UInt64}
      (hr : m.sched.current ∉ m.running) (hid : f.rax ≠ 1)
      (e : syscallHandlerC fuel m.sched f reported = some (s, out)) :
      Handles ⟨.syscall, m, f, m.toSched s, out⟩
  /-- A run syscall that adds no process. -/
  | runFailed {m : Machine} {f : CpuState} {success : UInt64}
      (hr : m.sched.current ∉ m.running) (hid : f.rax = 1) :
      Handles ⟨.syscall, m, f,
        m.toSched (runReturn (m.sched.loadPML4 m.sched.kernelPML4)), f.setRax success⟩
  /-- The end of a run syscall that added one: `f` is what its entry frame holds by then. -/
  | runReturn {m : Machine} {f : CpuState} (hr : m.sched.current ∈ m.running) :
      Handles ⟨.runReturn, m, f,
        { m with sched := EitanOS.runReturn m.sched, running := m.running.erase m.sched.current },
        f.setRax 1⟩

/-- **The steps without a return**: a run syscall adds its process, or the kernel's own code does. -/
inductive Silent : Machine → Machine → Prop
  | runAdd {m : Machine} {p pml4 : ℕ} {entry : UInt64} (hr : m.sched.current ∉ m.running)
      (h₀ : p ≠ 0) (hp : p ∉ m.sched.blocks) :
      Silent m { m.added (EitanOS.runAdd m.sched p entry pml4) p entry with
        running := m.sched.current :: m.running }
  | load {m : Machine} {p pml4 : ℕ} {entry : UInt64} (hr : m.sched.current ∉ m.running)
      (hk : m.sched.current = m.sched.kernel) (h₀ : p ≠ 0) (hp : p ∉ m.sched.blocks) :
      Silent m (m.added (EitanOS.runAdd m.sched p entry pml4) p entry)

/-- The runs of the machine, with the returns its handlers make. -/
inductive Run (m₀ : Machine) : List Return → Machine → Prop
  | nil : Run m₀ [] m₀
  | silent {rs : List Return} {m m' : Machine} (h : Run m₀ rs m) (hs : Silent m m') : Run m₀ rs m'
  | handle {rs : List Return} {r : Return} (h : Run m₀ rs r.pre) (hr : Handles r) :
      Run m₀ (r :: rs) r.post

/-- The return of an exit syscall. -/
def Return.IsExit (r : Return) : Prop := r.event = .syscall ∧ r.frame.rax = 0

end EitanOS
