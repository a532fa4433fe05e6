import EitanOS.Process.Context
import EitanOS.Process.Loader

/-!
# Preemption of the handlers

The gate of `int 0x80` clears the interrupt flag, and the timer is only taken while the flag is set.
A handler is a list of instructions (`Instr`): what it does to the flag and to the scheduler, with
everything else as `work`. `CpuStep` interleaves the handlers of all processes with the timer, one
instruction at a time.

* A fault ends in `panic`, which clears the flag and halts: nothing follows an `Instr.fault`.
* What the file system reads, the block `malloc` returns and what the page tables have room for are
  inputs of a syscall.
* **`flags_clear_iff`**: the flag stays clear in every syscall but a run syscall that adds a process.
* **`CpuRun.ok`**: without such a syscall, no handler is interrupted.
-/

namespace EitanOS

open Bytes Prog

/-- The address spaces a handler loads. -/
inductive Space
  | kernel
  | current
  | new (pml4 : ℕ)

/-- The PML4 that an address space has while the scheduler is in this state. -/
def Space.table (s : Sched) : Space → ℕ
  | .kernel => s.kernelPML4
  | .current => s.processPML4
  | .new pml4 => pml4

/-- What a handler does, one after the other. -/
inductive Instr
  | cli
  | sti
  /-- Code that uses neither the interrupt flag nor the scheduler. -/
  | work
  /-- `vmm_set_PML4(…); vmm_load_cpu();` -/
  | setPML4 (space : Space)
  /-- `process_scheduler_send_signals(pid, SIG_KILL)` -/
  | sendKill (pid : UInt32)
  /-- The body of `process_scheduler_add_process`, when `malloc` returns block `p`. -/
  | add (p : ℕ) (entry : UInt64) (pml4 : ℕ)
  /-- `process_scheduler_exit`, and the rest of the handler. -/
  | exit
  | fault

/-- The interrupt flag after an instruction. -/
def Instr.flag (flag : Bool) : Instr → Bool
  | .cli => false
  | .sti => true
  | .fault => false
  | _ => flag

/-- The scheduler after an instruction of a handler that goes on. -/
def Instr.effect (fuel : ℕ) (s : Sched) : Instr → Option Sched
  | .setPML4 space => some (s.loadPML4 (space.table s))
  | .sendKill pid => sendSignals fuel s pid sigKill
  | .add p entry pml4 => if p ∈ s.blocks then none else some (addProcess s p entry pml4 false).1
  | .exit => none
  | .fault => none
  | _ => some s

/-! ## The handlers -/

/-- `process_scheduler_add_process`: without memory for the record, its first store faults. -/
def addProcessInstrs (p : ℕ) (entry : UInt64) (pml4 : ℕ) : List Instr :=
  if p = 0 then [.cli, .fault] else [.cli, .add p entry pml4, .sti]

/-- The loop of `program_loader_load_elf64`, and whether it gets to its end. A segment that is out of
bounds is reported in the new address space, where `malloc` faults. -/
def loadSegmentsInstrs (file : Buf) (segment : ℕ → Bool) : List ℕ → List Instr × Bool
  | [] => ([], true)
  | i :: l =>
    if le32 file (Sys.programHeader file i) ≠ 1 then
      (loadSegmentsInstrs file segment l).map (Instr.work :: ·) id
    else if (le64 file (Sys.programHeader file i + 16)).toNat < Sys.processMemoryStart then
      ([.work, .fault], false)
    else if segment i then
      (loadSegmentsInstrs file segment l).map (Instr.work :: ·) id
    else ([.work, .fault], false)

/-- `program_loader_load_elf64`. -/
def loadElf64Instrs (file : Buf) (paging : Sys.Paging) (p pml4 : ℕ) : List Instr :=
  match Sys.checkFileElf64 file with
  | some _ => [.work]
  | none =>
    if paging.pml4 then
      let loop := loadSegmentsInstrs file paging.segment
        (List.range (Sys.programHeaderEntries file))
      [.work, .cli, .work, .setPML4 (.new pml4)] ++ loop.1 ++
        if loop.2 then [.work, .setPML4 .kernel] ++ addProcessInstrs p (le64 file 24) pml4 ++ [.work]
        else []
    else [.work, .cli, .work]

/-- The system calls. -/
inductive Syscall
  | exit
  /-- The run system call: `image` is what it reads from the file, if it reads it. -/
  | run (image : Option Buf) (paging : Sys.Paging) (p pml4 : ℕ)
  | close (pid : UInt32)
  /-- The calls of the heap, the keyboard, the screen and the file system, and unknown ids. -/
  | other (id : UInt64)

/-- `syscall_handler_c`. -/
def Syscall.instrs : Syscall → List Instr
  | .exit => [.setPML4 .kernel, .exit]
  | .run none _ _ _ => [.work, .setPML4 .kernel, .work, .setPML4 .current, .work]
  | .run (some file) paging p pml4 =>
    [.work, .setPML4 .kernel, .work] ++ loadElf64Instrs file paging p pml4 ++
      [.work, .setPML4 .current, .work]
  | .close pid => [.sendKill pid, .work]
  | .other _ => [.work]

/-- The flag after each instruction. -/
def flagTrace (flag : Bool) : List Instr → List Bool
  | [] => []
  | i :: l => i.flag flag :: flagTrace (i.flag flag) l

/-! ## When a process is added -/

/-- Every segment to load lies at or above `PROCESS_MEMORY_START` and can be mapped and copied. -/
def segmentsLoad (file : Buf) (segment : ℕ → Bool) (l : List ℕ) : Bool :=
  l.all fun i => le32 file (Sys.programHeader file i) ≠ 1 ||
    (Sys.processMemoryStart ≤ (le64 file (Sys.programHeader file i + 16)).toNat && segment i)

/-- The file is an ELF file that can be loaded. -/
def imageLoads (file : Buf) (paging : Sys.Paging) : Bool :=
  Sys.checkFileElf64 file = none && paging.pml4 &&
    segmentsLoad file paging.segment (List.range (Sys.programHeaderEntries file))

/-- A run system call that reads a file that can be loaded, with memory for a process record. -/
def Syscall.startsProcess : Syscall → Bool
  | .run (some file) paging p _ => imageLoads file paging && p ≠ 0
  | _ => false

/-! ## The interleaving -/

/-- Where a process is: in its own code, in the main loop of the kernel, or in a handler, with the
instructions it has still to run. -/
inductive Mode
  | user
  | idle
  | handler (rest : List Instr)

/-- The privilege level in the `cs` of a frame. -/
def Mode.rpl : Mode → UInt64
  | .user => 3
  | _ => 0

/-- The processor with the scheduler, and where each process is. -/
structure Cpu where
  sched : Sched
  mode : ℕ → Mode
  interruptFlag : Bool

namespace Cpu

/-- Where the process in block `q` is outside of handlers. -/
def home (c : Cpu) (q : ℕ) : Mode := if q = c.sched.kernel then .idle else .user

/-- The current process goes on at `mode`. -/
def goto (c : Cpu) (mode : Mode) : Cpu :=
  { c with mode := Function.update c.mode c.sched.current mode }

/-- A new process in block `p` starts in its own code. -/
def start (c : Cpu) (p : ℕ) : Cpu := { c with mode := Function.update c.mode p .user }

/-- A process that instruction `i` adds starts. -/
def startAdded (c : Cpu) : Instr → Cpu
  | .add p _ _ => c.start p
  | _ => c

end Cpu

/-- What is recorded of a step: `process_scheduler_next_process` entered for the timer, with the
current process, where it is and the frame that is saved for it; or a system call entered. -/
inductive CpuEvent
  | preempt (pid : UInt32) (mode : Mode) (frame : CpuState)
  | enter (call : Syscall)
  | internal

/-- **The steps of the processor.** `iretq` sets the interrupt flag: the code it returns to was
interrupted with the flag set, or starts with it set. -/
inductive CpuStep : Cpu → CpuEvent → Cpu → Prop
  | timer {fuel : ℕ} {c : Cpu} {f out : CpuState} {s : Sched} (hf : c.interruptFlag = true)
      (hcs : f.cs &&& 3 = (c.mode c.sched.current).rpl)
      (e : irqHandlerC fuel timerVector c.sched f = some (s, out)) :
      CpuStep c (.preempt (c.sched.pids c.sched.current) (c.mode c.sched.current) f)
        { c with sched := s, interruptFlag := true }
  | enter {c : Cpu} (hm : c.mode c.sched.current = c.home c.sched.current) (call : Syscall) :
      CpuStep c (.enter call) { c.goto (.handler call.instrs) with interruptFlag := false }
  | instr {fuel : ℕ} {c : Cpu} {i : Instr} {rest : List Instr} {s : Sched}
      (hm : c.mode c.sched.current = .handler (i :: rest)) (e : i.effect fuel c.sched = some s) :
      CpuStep c .internal
        { (c.goto (.handler rest)).startAdded i with
          sched := s, interruptFlag := i.flag c.interruptFlag }
  | exit {fuel : ℕ} {c : Cpu} {rest : List Instr} {s : Sched} {out : CpuState}
      (hm : c.mode c.sched.current = .handler (.exit :: rest))
      (e : schedExit fuel c.sched = some (s, out)) :
      CpuStep c .internal
        { c.goto (c.home c.sched.current) with sched := s, interruptFlag := true }
  | iretq {c : Cpu} (hm : c.mode c.sched.current = .handler []) :
      CpuStep c .internal { c.goto (c.home c.sched.current) with interruptFlag := true }
  /-- The kernel process loads a program. -/
  | load {c : Cpu} {p pml4 : ℕ} {entry : UInt64} (hk : c.sched.current = c.sched.kernel)
      (hm : c.mode c.sched.current = .idle) (h₀ : p ≠ 0) (hp : p ∉ c.sched.blocks) :
      CpuStep c .internal { c.start p with sched := runAdd c.sched p entry pml4 }

/-- The runs of the processor. -/
inductive CpuRun (c₀ : Cpu) : List CpuEvent → Cpu → Prop
  | nil : CpuRun c₀ [] c₀
  | step {es : List CpuEvent} {e : CpuEvent} {c c' : Cpu} (h : CpuRun c₀ es c)
      (hs : CpuStep c e c') : CpuRun c₀ (e :: es) c'

/-- The processor after `interrupts_init`. -/
def cpuInit (procs : ℕ → Process) (p kernelPML4 : ℕ) : Cpu where
  sched := schedInit procs p kernelPML4
  mode q := if q = p then .idle else .user
  interruptFlag := true

/-! ## The interrupt flag in one system call -/

theorem flagTrace_clear_iff (l : List Instr) :
    (∀ b ∈ flagTrace false l, b = false) ↔ Instr.sti ∉ l := by
  induction l with
  | nil => simp [flagTrace]
  | cons i l ih =>
    cases i with
    | sti => simp [flagTrace, Instr.flag]
    | _ => simpa [flagTrace, Instr.flag] using ih

theorem loadSegmentsInstrs_end (file : Buf) (segment : ℕ → Bool) (l : List ℕ) :
    (loadSegmentsInstrs file segment l).2 = segmentsLoad file segment l := by
  induction l with
  | nil => rfl
  | cons i l ih =>
    rw [loadSegmentsInstrs, segmentsLoad, List.all_cons, ← segmentsLoad, ← ih]
    split_ifs with h₁ h₂ h₃
    · simp [h₁]
    · simp [not_not.mp h₁, h₂]
    · simp [h₃, not_lt.mp h₂]
    · simp [not_not.mp h₁, h₃]

theorem loadSegmentsInstrs_sti (file : Buf) (segment : ℕ → Bool) (l : List ℕ) :
    Instr.sti ∉ (loadSegmentsInstrs file segment l).1 := by
  induction l with
  | nil => simp [loadSegmentsInstrs]
  | cons i l ih =>
    rw [loadSegmentsInstrs]
    split_ifs <;> simp [ih]

theorem sti_mem_loadElf64 (file : Buf) (paging : Sys.Paging) (p pml4 : ℕ) :
    Instr.sti ∈ loadElf64Instrs file paging p pml4 ↔ imageLoads file paging = true ∧ p ≠ 0 := by
  have h₁ := loadSegmentsInstrs_sti file paging.segment (List.range (Sys.programHeaderEntries file))
  have h₂ := loadSegmentsInstrs_end file paging.segment (List.range (Sys.programHeaderEntries file))
  unfold loadElf64Instrs imageLoads addProcessInstrs
  split
  · rename_i e
    simp [e]
  · rename_i e
    split_ifs <;> simp_all

/-- **A system call enables interrupts exactly if it adds a process.** -/
theorem sti_mem_instrs (call : Syscall) : Instr.sti ∈ call.instrs ↔ call.startsProcess = true := by
  cases call with
  | run image paging p pml4 =>
    cases image with
    | none => simp [Syscall.instrs, Syscall.startsProcess]
    | some file => simp [Syscall.instrs, Syscall.startsProcess, sti_mem_loadElf64]
  | _ => simp [Syscall.instrs, Syscall.startsProcess]

theorem flags_clear_iff (call : Syscall) :
    (∀ b ∈ flagTrace false call.instrs, b = false) ↔ call.startsProcess = false := by
  rw [flagTrace_clear_iff, sti_mem_instrs, Bool.not_eq_true]

/-! The loader returns true exactly for the files that `imageLoads` describes. -/

/-! ## Runs without a new process -/

variable {c c' : Cpu} {e : CpuEvent} {es : List CpuEvent}

/-- Handlers run with the flag clear and do not set it, and only the current process is in one. -/
structure CpuOk (c : Cpu) : Prop where
  shape : ∃ l, RingShape c.sched l
  suspended : ∀ q, q ≠ c.sched.current → c.mode q = c.home q
  running : c.mode c.sched.current = c.home c.sched.current ∨
    ∃ rest, c.mode c.sched.current = .handler rest ∧ c.interruptFlag = false ∧ Instr.sti ∉ rest

theorem Cpu.home_ne_handler (c : Cpu) (q : ℕ) (rest : List Instr) : c.home q ≠ .handler rest := by
  unfold Cpu.home
  split_ifs <;> exact nofun

theorem cpuOk_init (procs : ℕ → Process) (p kernelPML4 : ℕ) :
    CpuOk (cpuInit procs p kernelPML4) where
  shape := (machineOk_init procs p kernelPML4).shape
  suspended _ _ := rfl
  running := .inl rfl

theorem CpuOk.handler (h : CpuOk c) {rest : List Instr}
    (hm : c.mode c.sched.current = .handler rest) : c.interruptFlag = false ∧ Instr.sti ∉ rest := by
  rcases h.running with hr | ⟨rest', hr, hf⟩
  · exact absurd (hr.symm.trans hm) (c.home_ne_handler _ _)
  · cases hr.symm.trans hm
    exact hf

theorem CpuOk.switch (h : CpuOk c) {s : Sched} {mode : ℕ → Mode} (b : Bool)
    (hmode : mode = Function.update c.mode c.sched.current (c.home c.sched.current))
    (hs : ∃ l, RingShape s l) (hk : s.kernel = c.sched.kernel) : CpuOk ⟨s, mode, b⟩ := by
  have hall : ∀ q, mode q = (Cpu.mk s mode b).home q := by
    intro q
    have hq : (Cpu.mk s mode b).home q = c.home q := by rw [Cpu.home, Cpu.home, hk]
    rw [hq, hmode]
    rcases eq_or_ne q c.sched.current with rfl | hne
    · exact Function.update_self _ _ _
    · exact (Function.update_of_ne hne _ _).trans (h.suspended q hne)
  exact ⟨hs, fun q _ => hall q, .inl (hall _)⟩

theorem CpuOk.goto_handler (h : CpuOk c) {rest : List Instr} (hsti : Instr.sti ∉ rest) :
    CpuOk { c.goto (.handler rest) with interruptFlag := false } where
  shape := h.shape
  suspended q hq := (Function.update_of_ne hq _ _).trans (h.suspended q hq)
  running := .inr ⟨rest, Function.update_self _ _ _, rfl, hsti⟩

theorem CpuOk.start (h : CpuOk c) {p : ℕ} (hp : p ∉ c.sched.blocks) : CpuOk (c.start p) := by
  obtain ⟨l, hl⟩ := h.shape
  have hc := hl.ne_of_notMem_blocks hp List.mem_cons_self
  have hk := hl.ne_of_notMem_blocks hp hl.kernel_mem
  have hcur : (c.start p).mode c.sched.current = c.mode c.sched.current :=
    Function.update_of_ne hc _ _
  refine ⟨h.shape, fun q hq => ?_, h.running.imp hcur.trans fun ⟨rest, hr⟩ =>
    ⟨rest, hcur.trans hr.1, hr.2⟩⟩
  rcases eq_or_ne q p with rfl | hne
  · exact (Function.update_self _ _ _).trans (if_neg hk.symm).symm
  · exact (Function.update_of_ne hne _ _).trans (h.suspended q hq)

theorem CpuOk.startAdded (h : CpuOk c) {fuel : ℕ} {i : Instr} {s : Sched}
    (he : i.effect fuel c.sched = some s) : CpuOk (c.startAdded i) := by
  cases i with
  | add p entry pml4 =>
    refine h.start fun hp => ?_
    rw [Instr.effect, if_pos hp] at he
    cases he
  | _ => exact h

theorem CpuOk.toSched (h : CpuOk c) {s : Sched} (hs : ∃ l, RingShape s l)
    (hc : s.current = c.sched.current) (hk : s.kernel = c.sched.kernel) :
    CpuOk { c with sched := s } := by
  have hhome : ∀ q, ({ c with sched := s } : Cpu).home q = c.home q := fun q => by
    rw [Cpu.home, Cpu.home, hk]
  refine ⟨hs, fun q hq => (h.suspended q (hc ▸ hq)).trans (hhome q).symm, ?_⟩
  rw [hhome, hc]
  exact h.running

theorem Instr.effect_spec {fuel : ℕ} {s s' : Sched} {i : Instr} {l : List ℕ} (h : RingShape s l)
    (he : i.effect fuel s = some s') :
    (∃ l', RingShape s' l') ∧ s'.current = s.current ∧ s'.kernel = s.kernel := by
  cases i with
  | setPML4 space =>
    cases he
    exact ⟨⟨l, h.loadPML4 _⟩, rfl, rfl⟩
  | sendKill pid =>
    have hm := sendSignals_moves he
    exact ⟨hm.shape h, (sendSignals_globals he).1, hm.same.kernel⟩
  | add p entry pml4 =>
    rw [Instr.effect] at he
    split_ifs at he with hp
    cases he
    exact ⟨⟨p :: l, h.add entry pml4 false hp⟩, rfl, rfl⟩
  | exit => cases he
  | fault => cases he
  | _ =>
    cases he
    exact ⟨⟨l, h⟩, rfl, rfl⟩

theorem CpuOk.instr (h : CpuOk c) {fuel : ℕ} {i : Instr} {rest : List Instr} {s : Sched}
    (hm : c.mode c.sched.current = .handler (i :: rest)) (he : i.effect fuel c.sched = some s) :
    CpuOk { (c.goto (.handler rest)).startAdded i with
      sched := s, interruptFlag := i.flag c.interruptFlag } := by
  obtain ⟨hf, hsti⟩ := h.handler hm
  obtain ⟨l, hl⟩ := h.shape
  obtain ⟨hs, hc, hk⟩ := i.effect_spec hl he
  have hflag : i.flag c.interruptFlag = false := by
    cases i with
    | sti => exact absurd List.mem_cons_self hsti
    | _ => simp [Instr.flag, hf]
  have h₁ := h.goto_handler fun hmem => hsti (List.mem_cons_of_mem i hmem)
  rw [hflag]
  cases i <;> exact (h₁.startAdded he).toSched hs hc hk

/-- The call that an event enters, if any, adds no process. -/
def CpuEvent.AddsNone (e : CpuEvent) : Prop := ∀ call, e = .enter call → call.startsProcess = false

/-- `process_scheduler_next_process` is not entered from a handler, and saves a ring-0 frame only for
pid 0. -/
def CpuEvent.Outside : CpuEvent → Prop
  | .preempt pid mode frame => (∀ rest, mode ≠ .handler rest) ∧ (pid ≠ 0 → frame.cs &&& 3 = 3)
  | _ => True

/-- **Each step keeps the invariant**, unless it enters a system call that adds a process. -/
theorem CpuStep.ok (hs : CpuStep c e c') (h : CpuOk c) (ha : e.AddsNone) : CpuOk c' := by
  obtain ⟨l, hl⟩ := h.shape
  cases hs with
  | @timer fuel _ f out s hf hcs he =>
    rw [irqHandlerC_timer] at he
    obtain ⟨s₁, hm, rfl, -⟩ := hl.nextProcess_spec he
    have hm : Moves (saveRegs c.sched f) (s₁.loadPML4 s₁.processPML4) := hm.tail (.load _)
    refine h.switch true ?_ (hm.shape (hl.save f)) hm.same.kernel
    rcases h.running with hr | ⟨rest, -, hf', -⟩
    · rw [← hr, Function.update_eq_self]
    · exact absurd (hf'.symm.trans hf) (by decide)
  | enter hm call =>
    refine h.goto_handler fun hsti => ?_
    exact absurd ((sti_mem_instrs call).mp hsti) (by simp [ha call rfl])
  | instr hm he => exact h.instr hm he
  | exit hm he =>
    obtain ⟨hm, -⟩ := hl.schedExit_spec he
    exact h.switch true rfl (hm.shape hl) hm.same.kernel
  | iretq hm => exact h.switch true rfl h.shape rfl
  | load hk hm h₀ hp =>
    exact (h.start hp).toSched ⟨_, (hl.loadPML4 _).add _ _ false hp⟩ rfl rfl

/-- **The timer finds no handler at work.** -/
theorem CpuStep.outside (hs : CpuStep c e c') (h : CpuOk c) : e.Outside := by
  cases hs with
  | timer hf hcs he =>
    have hr : c.mode c.sched.current = c.home c.sched.current := by
      rcases h.running with hr | ⟨rest, -, hf', -⟩
      · exact hr
      · exact absurd (hf'.symm.trans hf) (by decide)
    refine ⟨fun rest => hr ▸ c.home_ne_handler _ rest, fun hpid => ?_⟩
    obtain ⟨l, hl⟩ := h.shape
    have hk : c.sched.current ≠ c.sched.kernel := fun hk => hpid (hk ▸ hl.kernel_pid)
    rw [hcs, hr, Cpu.home, if_neg hk]
    rfl
  | _ => trivial

/-- **Runs keep the invariant**, and the timer never interrupts a handler. -/
theorem CpuRun.ok {c₀ : Cpu} (hr : CpuRun c₀ es c) (h₀ : CpuOk c₀) (ha : ∀ e ∈ es, e.AddsNone) :
    CpuOk c ∧ ∀ e ∈ es, e.Outside := by
  induction hr with
  | nil => exact ⟨h₀, List.forall_mem_nil _⟩
  | step _ hs ih =>
    obtain ⟨ha, has⟩ := List.forall_mem_cons.mp ha
    obtain ⟨hok, hout⟩ := ih has
    exact ⟨hs.ok hok ha, List.forall_mem_cons.mpr ⟨hs.outside hok, hout⟩⟩

/-- **System calls are atomic** exactly when they add no process: the interrupt flag is clear at
every step of the handler, and in a run of such calls the timer interrupts no handler. -/
theorem syscalls_atomic (call : Syscall) (procs : ℕ → Process) (p kernelPML4 : ℕ) (es : List CpuEvent) (c : Cpu) :
    ((∀ b ∈ flagTrace false call.instrs, b = false) ↔ call.startsProcess = false) ∧
      (CpuRun (cpuInit procs p kernelPML4) es c → (∀ e ∈ es, e.AddsNone) →
        (∀ rest, c.mode c.sched.current = .handler rest → c.interruptFlag = false) ∧
          ∀ e ∈ es, e.Outside) := by
  refine ⟨flags_clear_iff call, fun hr ha => ?_⟩
  obtain ⟨hok, hout⟩ := hr.ok (cpuOk_init procs p kernelPML4) ha
  exact ⟨fun rest hm => (hok.handler hm).1, hout⟩

/-- An ELF header without program headers. -/
def emptyImage : Buf := fun a =>
  if a = 0 then 0x7F else if a = 1 then 0x45 else if a = 2 then 0x4C else if a = 3 then 0x46
  else if a = 4 then 2 else if a = 5 ∨ a = 20 then 1 else if a = 16 then 2 else if a = 18 then 62
  else 0

/-- A run system call that loads this image in block 48. -/
def emptyImageCall : Syscall := .run (some emptyImage) ⟨true, fun _ => true, true⟩ 48 0x3000

/-- Run `n` instructions of the handler of the current process. -/
def Cpu.advance (fuel : ℕ) : ℕ → Cpu → Option Cpu
  | 0, c => some c
  | n + 1, c =>
    match c.mode c.sched.current with
    | .handler (i :: rest) => (i.effect fuel c.sched).bind fun s =>
        Cpu.advance fuel n { (c.goto (.handler rest)).startAdded i with
          sched := s, interruptFlag := i.flag c.interruptFlag }
    | _ => none

theorem CpuRun.advance {c₀ : Cpu} (h : CpuRun c₀ es c) {fuel n : ℕ}
    (e : c.advance fuel n = some c') : CpuRun c₀ (List.replicate n .internal ++ es) c' := by
  induction n generalizing c es with
  | zero =>
    cases e
    exact h
  | succ n ih =>
    rw [Cpu.advance] at e
    split at e
    · rename_i i rest hm
      obtain ⟨s, hs, e⟩ := Option.bind_eq_some_iff.mp e
      have := ih (h.step (.instr hm hs)) e
      rwa [List.append_cons, ← List.replicate_succ'] at this
    · cases e

/-- The kernel process in block 16 has loaded a program in block 32, and the timer has switched to
it. -/
def userCpu : Cpu where
  sched := ((nextProcess 2 userMachine.sched CpuState.zero).map Prod.fst).getD userMachine.sched
  mode := Function.update (fun q => if q = 16 then .idle else .user) 32 .user
  interruptFlag := true

theorem userCpu_run : ∃ es, CpuRun (cpuInit (fun _ => ⟨0, CpuState.zero, 0, 0, 0⟩) 16 0x1000) es
    userCpu ∧ ∀ e ∈ es, e.AddsNone := by
  have h₁ := CpuRun.step (@CpuRun.nil (cpuInit (fun _ => ⟨0, CpuState.zero, 0, 0, 0⟩) 16 0x1000))
    (@CpuStep.load _ 32 0x2000 0x400000 rfl rfl (by decide) (by decide))
  have h₂ := h₁.step (@CpuStep.timer 2 _ CpuState.zero _ _ rfl (by decide) rfl)
  exact ⟨_, h₂, List.forall_mem_cons.mpr ⟨nofun, List.forall_mem_cons.mpr ⟨nofun, nofun⟩⟩⟩

/-- The user process, pid 1, runs the empty image: its call ends with the flag set, and the timer
then saves a ring-0 frame for it. -/
theorem run_syscall_preempted : emptyImageCall.startsProcess = true ∧
    true ∈ flagTrace false emptyImageCall.instrs ∧
    ∃ es c rest, CpuRun (cpuInit (fun _ => ⟨0, CpuState.zero, 0, 0, 0⟩) 16 0x1000)
      (.preempt 1 (.handler rest) CpuState.zero :: es) c ∧ CpuState.zero.cs &&& 3 = 0 := by
  obtain ⟨es, h, -⟩ := userCpu_run
  have h₁ := (h.step (.enter rfl emptyImageCall)).advance (rfl : Cpu.advance 2 12 _ = some _)
  exact ⟨by decide, by decide, _, _, _,
    h₁.step (@CpuStep.timer 3 _ CpuState.zero _ _ rfl (by decide) rfl), by decide⟩

theorem syscalls_atomic_keyboard : ∃ es c,
    CpuRun (cpuInit (fun _ => ⟨0, CpuState.zero, 0, 0, 0⟩) 16 0x1000) es c ∧
      .enter (.other 20) ∈ es ∧ ∀ e ∈ es, e.Outside := by
  obtain ⟨es, h, ha⟩ := userCpu_run
  have h₁ := (h.step (.enter rfl (.other 20))).advance (rfl : Cpu.advance 2 1 _ = some _)
  have h₂ := (h₁.step (.iretq rfl)).step
    (@CpuStep.timer 2 _ { CpuState.zero with cs := 27 } _ _ rfl (by decide) rfl)
  refine ⟨_, _, h₂, by simp, ((syscalls_atomic (.other 20) _ _ _ _ _).2 h₂ ?_).2⟩
  have hcall : CpuEvent.AddsNone (.enter (.other 20)) := by
    rintro _ ⟨⟩
    rfl
  exact List.forall_mem_cons.mpr ⟨nofun, List.forall_mem_cons.mpr ⟨nofun,
    List.forall_mem_cons.mpr ⟨nofun, List.forall_mem_cons.mpr ⟨hcall, ha⟩⟩⟩⟩

end EitanOS
