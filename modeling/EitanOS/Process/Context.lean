import EitanOS.Process.Interrupts

/-!
# What a process finds when it is resumed

* **`run_registers`**: over whole runs, handlers return to another process with the registers saved
  for it exactly when, at every exit syscall, the next process of the ring has a saved `rax` of 1:
  the epilogue `current_regs[16] = success` writes into the frame of that process.
* **`run_address_space`**: over whole runs, handlers return in the address space of the current
  process exactly when, at every exit syscall, the next process of the ring is in the kernel's
  address space: `process_scheduler_exit` does not load its own.
-/

namespace EitanOS

/-! ## The syscall handler -/

variable {s s' : Sched} {fuel : ℕ} {l : List ℕ}

theorem sendSignals_globals {pid mask : UInt32} (e : sendSignals fuel s pid mask = some s') :
    s'.current = s.current ∧ s'.currentPML4 = s.currentPML4 ∧ s'.cr3 = s.cr3 := by
  obtain ⟨o, -, rfl⟩ := Option.map_eq_some_iff.mp e
  cases o with
  | none => exact ⟨rfl, rfl, rfl⟩
  | some p => exact ⟨rfl, rfl, rfl⟩

theorem RingShape.schedExit_loaded (h : RingShape s l) {out : CpuState}
    (e : schedExit fuel (s.loadPML4 s.kernelPML4) = some (s', out)) :
    s'.currentPML4 = s.kernelPML4 ∧ s'.cr3 = s.kernelPML4 := by
  obtain ⟨⟨s₁, b⟩, e₁, e⟩ := Option.map_eq_some_iff.mp e
  obtain ⟨rfl, -⟩ := Prod.mk.inj e
  rcases (h.loadPML4 _).removeProcess_spec e₁ with ⟨e, -⟩ | ⟨prev, -, e, -⟩
  · obtain ⟨rfl, -⟩ := Prod.mk.inj e
    exact ⟨rfl, rfl⟩
  · obtain ⟨rfl, -⟩ := Prod.mk.inj e
    exact ⟨rfl, rfl⟩

/-- No other process has the current one's pid. -/
def Sched.OwnPid (s : Sched) : Prop := ∀ q ∈ s.blocks, s.pids q = s.pids s.current → q = s.current

/-- **Who comes after an exit**: the next process of the ring; the kernel process stays. -/
theorem RingShape.schedExit_current (h : RingShape s l) (hu : s.OwnPid) {t : ℕ} {out : CpuState}
    (e : schedExit fuel (s.loadPML4 t) = some (s', out)) :
    (s.pids s.current = 0 ∧ s.current = s.kernel ∧ s'.current = s.current) ∨
      (s.pids s.current ≠ 0 ∧ s'.current = s.links s.current ∧ s'.current ≠ s.current) := by
  have hker : s.pids s.current = 0 → s.current = s.kernel := fun h₀ =>
    (hu s.kernel (h.blocks.mem_iff.mpr h.kernel_mem) (h.kernel_pid.trans h₀.symm)).symm
  obtain ⟨⟨s₁, b⟩, e₁, e⟩ := Option.map_eq_some_iff.mp e
  obtain ⟨rfl, -⟩ := Prod.mk.inj e
  rcases (h.loadPML4 t).removeProcess_spec e₁ with ⟨e, h₀⟩ | ⟨prev, hp, e, hpid, h₀⟩
  · obtain ⟨rfl, -⟩ := Prod.mk.inj e
    have h₀ := h₀.resolve_right fun hne => hne _ List.mem_cons_self rfl
    exact Or.inl ⟨h₀, hker h₀, rfl⟩
  · obtain ⟨rfl, -⟩ := Prod.mk.inj e
    -- the process found is the one that exits
    have hx : s.links prev = s.current :=
      hu _ (h.blocks.mem_iff.mpr (h.ring.next_mem (h.blocks.mem_iff.mp hp))) hpid
    have hnext : (unlinkProcess (s.loadPML4 t) prev).current = s.links s.current := by
      rw [← hx]
      rfl
    refine Or.inr ⟨h₀, hnext, ?_⟩
    rw [hnext]
    intro hself
    have hl : l = [] := by
      cases l with
      | nil => rfl
      | cons a l =>
        have := h.ring.next_eq.symm.trans hself
        exact absurd List.mem_cons_self (this ▸ (List.nodup_cons.mp h.ring.nodup).1)
    have hk := h.kernel_mem
    rw [hl, List.mem_singleton] at hk
    exact h₀ (hk ▸ h.kernel_pid)

/-- **`syscall_handler_c`**: exit restores the frame of the process that is current then, with
`rax` overwritten; the others return to the caller. -/
theorem RingShape.syscallHandlerC_spec (h : RingShape s l) {f out : CpuState} {reported : UInt64}
    (e : syscallHandlerC fuel s f reported = some (s', out)) :
    Moves s s' ∧
      ((f.rax = 0 ∧ s'.currentPML4 = s.kernelPML4 ∧ s'.cr3 = s.kernelPML4 ∧
          out = (s'.procs s'.current).regs.setRax 1 ∧
          (s.OwnPid → (s.pids s.current = 0 ∧ s.current = s.kernel ∧ s'.current = s.current) ∨
            (s.pids s.current ≠ 0 ∧ s'.current = s.links s.current ∧ s'.current ≠ s.current))) ∨
        (f.rax ≠ 0 ∧ s'.current = s.current ∧ s'.currentPML4 = s.currentPML4 ∧ s'.cr3 = s.cr3)) := by
  unfold syscallHandlerC at e
  split_ifs at e with h₀ h₂
  · obtain ⟨⟨s₁, r⟩, e₁, e⟩ := Option.map_eq_some_iff.mp e
    obtain ⟨rfl, rfl⟩ := Prod.mk.inj e
    obtain ⟨hm, rfl⟩ := (h.loadPML4 _).schedExit_spec e₁
    obtain ⟨h₁, h₂⟩ := h.schedExit_loaded e₁
    exact ⟨.head (.load _) hm, Or.inl ⟨h₀, h₁, h₂, rfl, fun hu => h.schedExit_current hu e₁⟩⟩
  · obtain ⟨s₁, e₁, e⟩ := Option.map_eq_some_iff.mp e
    obtain ⟨rfl, rfl⟩ := Prod.mk.inj e
    exact ⟨sendSignals_moves e₁, Or.inr ⟨h₀, sendSignals_globals e₁⟩⟩
  · obtain ⟨rfl, rfl⟩ := Prod.mk.inj (Option.some.inj e)
    exact ⟨.refl, Or.inr ⟨h₀, rfl, rfl, rfl⟩⟩

theorem irqHandlerC_timer (s : Sched) (f : CpuState) :
    irqHandlerC fuel timerVector s f = nextProcess fuel s f := by
  rw [irqHandlerC, if_neg (by decide), if_pos (by decide)]

/-! ## The invariant of runs -/

/-- The ring has its shape, and the frames in the process records are those recorded. -/
structure MachineOk (m : Machine) : Prop where
  shape : ∃ l, RingShape m.sched l
  frames : ∀ q, (m.sched.procs q).regs = m.saved q

theorem machineOk_init (procs : ℕ → Process) (p kernelPML4 : ℕ) :
    MachineOk (machineInit procs p kernelPML4) where
  shape := ⟨[], Links.ring_nil (by simp [machineInit, schedInit, Sched.links]), List.Perm.refl _,
    List.mem_cons_self, by simp [machineInit, schedInit, Sched.pids]⟩
  frames _ := rfl

theorem MachineOk.toSched {m : Machine} (h : MachineOk m) {s : Sched} (hm : Moves m.sched s) :
    MachineOk (m.toSched s) := by
  obtain ⟨l, hl⟩ := h.shape
  exact ⟨hm.shape hl, fun q => (hm.same.regs q).trans (h.frames q)⟩

theorem saveRegs_regs (s : Sched) (f : CpuState) (q : ℕ) :
    ((saveRegs s f).procs q).regs = Function.update (fun q => (s.procs q).regs) s.current f q := by
  rcases eq_or_ne q s.current with rfl | hq
  · simp [saveRegs, Sched.modify, Sched.loadPML4]
  · simp [saveRegs, Sched.modify, Sched.loadPML4, hq]

theorem MachineOk.switchOut {m : Machine} (h : MachineOk m) (f : CpuState) :
    MachineOk { m.switchOut f with sched := saveRegs m.sched f } := by
  obtain ⟨l, hl⟩ := h.shape
  refine ⟨⟨l, hl.save f⟩, fun q => ?_⟩
  rw [saveRegs_regs, funext h.frames]
  rfl

theorem MachineOk.added {m : Machine} (h : MachineOk m) {p : ℕ} (hp : p ∉ m.sched.blocks)
    (entry : UInt64) (pml4 : ℕ) : MachineOk (m.added (runAdd m.sched p entry pml4) p entry) := by
  obtain ⟨l, hl⟩ := h.shape
  have hl' := hl.loadPML4 m.sched.kernelPML4
  refine ⟨⟨p :: l, hl'.add entry pml4 false hp⟩, fun q => ?_⟩
  rcases eq_or_ne q p with rfl | hq
  · have hc := (hl.ne_of_notMem_blocks hp List.mem_cons_self).symm
    have h₁ : ((runAdd m.sched q entry pml4).procs q).regs = initialRegs entry false :=
      congrArg Process.regs (addProcess_new entry pml4 false hc)
    have h₂ : (m.added (runAdd m.sched q entry pml4) q entry).saved q = initialRegs entry false :=
      Function.update_self _ _ _
    exact h₁.trans h₂.symm
  · have := (addProcess_procs (s := m.sched.loadPML4 m.sched.kernelPML4) entry pml4 false hq).2.1
    exact (this.trans (h.frames q)).trans (Function.update_of_ne hq _ _).symm

theorem Silent.ok {m m' : Machine} (hs : Silent m m') (h : MachineOk m) : MachineOk m' := by
  cases hs with
  | @runAdd _ pml4 entry _ _ hp =>
    have := h.added hp entry pml4
    exact ⟨this.shape, this.frames⟩
  | load _ _ _ hp => exact h.added hp _ _

/-- **Each return keeps the invariant.** -/
theorem Handles.ok {r : Return} (hr : Handles r) (h : MachineOk r.pre) : MachineOk r.post := by
  cases hr with
  | @timer _ m f _ _ e =>
    obtain ⟨l, hl⟩ := h.shape
    rw [irqHandlerC_timer] at e
    obtain ⟨s₁, hm, rfl, -⟩ := hl.nextProcess_spec e
    have := (h.switchOut f).toSched (hm.tail (.load s₁.processPML4))
    exact ⟨this.shape, this.frames⟩
  | syscall _ _ e =>
    obtain ⟨l, hl⟩ := h.shape
    exact h.toSched (hl.syscallHandlerC_spec e).1
  | runFailed _ _ => exact h.toSched (.tail (.single (.load _)) (.load _))
  | @runReturn m _ _ =>
    have := h.toSched (.single (.load m.sched.processPML4))
    exact ⟨this.shape, this.frames⟩

theorem Run.ok {m₀ m : Machine} {rs : List Return} (h : Run m₀ rs m) (h₀ : MachineOk m₀) :
    MachineOk m := by
  induction h with
  | nil => exact h₀
  | silent _ hs ih => exact hs.ok ih
  | handle _ hr ih => exact hr.ok ih

theorem Run.of_mem {m₀ m : Machine} {rs : List Return} (h : Run m₀ rs m) {r : Return}
    (hr : r ∈ rs) : Handles r ∧ ∃ rs', Run m₀ rs' r.pre := by
  induction h with
  | nil => exact absurd hr List.not_mem_nil
  | silent _ _ ih => exact ih hr
  | handle hrun hh ih =>
    rcases List.mem_cons.mp hr with rfl | hr
    · exact ⟨hh, _, hrun⟩
    · exact ih hr

/-! ## Registers -/

/-- A return to another process restores the frame recorded for it, and a timer interrupt that
returns to the same process restores the frame it came with. -/
def Return.Intact (r : Return) : Prop :=
  (r.post.sched.current ≠ r.pre.sched.current → r.out = r.post.saved r.post.sched.current) ∧
    (r.post.sched.current = r.pre.sched.current → r.event = .timer → r.out = r.frame)

/-- At an exit syscall, the next process of the ring has a saved `rax` of 1. -/
def Return.ExitRax (r : Return) : Prop :=
  r.IsExit → r.pre.sched.pids r.pre.sched.current ≠ 0 →
    (r.pre.saved (r.pre.sched.links r.pre.sched.current)).rax = 1

theorem setRax_eq_self {f : CpuState} {v : UInt64} : f.setRax v = f ↔ f.rax = v := by
  constructor
  · intro h
    rw [← h]
    rfl
  · rintro rfl
    rfl

theorem Handles.intact_iff {r : Return} (hr : Handles r) (h : MachineOk r.pre)
    (hu : r.IsExit → r.pre.sched.OwnPid) : r.Intact ↔ r.ExitRax := by
  have hpost := hr.ok h
  obtain ⟨l, hl⟩ := h.shape
  cases hr with
  | @timer _ m f out _ e =>
    rw [irqHandlerC_timer] at e
    obtain ⟨s₁, hm, rfl, rfl⟩ := hl.nextProcess_spec e
    refine iff_of_true ⟨fun _ => hpost.frames _, fun hc _ => ?_⟩ fun he => absurd he.1 nofun
    have hc : s₁.current = m.sched.current := hc
    have := hm.same.regs s₁.current
    rw [saveRegs_regs, hc, Function.update_self] at this
    rw [hc]
    exact this
  | @syscall _ m f out s₁ _ _ _ e =>
    obtain ⟨hm, ⟨h₀, -, -, rfl, hnext⟩ | ⟨h₀, hc, -⟩⟩ := hl.syscallHandlerC_spec e
    · have hf : (s₁.procs s₁.current).regs = m.saved s₁.current := hpost.frames s₁.current
      rcases hnext (hu ⟨rfl, h₀⟩) with ⟨hpid, -, hc⟩ | ⟨hpid, hc, hne⟩
      · exact iff_of_true ⟨fun hne => absurd hc hne, nofun⟩ fun _ hne => absurd hpid hne
      · -- a switch: the frame is the next process's, with `rax` overwritten
        have hi : (s₁.procs s₁.current).regs.setRax 1 = m.saved s₁.current ↔
            (m.saved (m.sched.links m.sched.current)).rax = 1 := by
          rw [hf, setRax_eq_self, hc]
        exact ⟨fun hin _ _ => hi.mp (hin.1 hne), fun he => ⟨fun _ => hi.mpr (he ⟨rfl, h₀⟩ hpid), nofun⟩⟩
    · exact iff_of_true ⟨fun hne => absurd hc hne, nofun⟩ fun he => absurd he.2 h₀
  | @runFailed _ f _ _ hid =>
    refine iff_of_true ⟨fun hne => absurd rfl hne, nofun⟩ fun he => ?_
    have h₀ : f.rax = 0 := he.2
    rw [hid] at h₀
    exact absurd h₀ (by decide)
  | runReturn _ => exact iff_of_true ⟨fun hne => absurd rfl hne, nofun⟩ fun he => absurd he.1 nofun

/-- **Registers over whole runs** in which no process exits under another's pid: every return
restores the registers of the process it resumes exactly when, at every exit syscall, the next
process of the ring has a saved `rax` of 1. -/
theorem run_registers {procs : ℕ → Process} {p kernelPML4 : ℕ} {rs : List Return} {m : Machine}
    (h : Run (machineInit procs p kernelPML4) rs m)
    (hu : ∀ r ∈ rs, r.IsExit → r.pre.sched.OwnPid) :
    (∀ r ∈ rs, r.Intact) ↔ ∀ r ∈ rs, r.ExitRax := by
  refine forall₂_congr fun r hr => ?_
  obtain ⟨hh, rs', hrun⟩ := h.of_mem hr
  exact hh.intact_iff (hrun.ok (machineOk_init procs p kernelPML4)) (hu r hr)

/-- A machine with the kernel process in block 16 and a user process in block 32. -/
def userMachine : Machine :=
  (machineInit (fun _ => ⟨0, CpuState.zero, 0, 0, 0⟩) 16 0x1000).added
    (runAdd (schedInit (fun _ => ⟨0, CpuState.zero, 0, 0, 0⟩) 16 0x1000) 32 0x400000 0x2000) 32 0x400000

theorem run_userMachine : Run (machineInit (fun _ => ⟨0, CpuState.zero, 0, 0, 0⟩) 16 0x1000) []
    userMachine :=
  .silent .nil (.load (by decide) rfl (by decide) (by decide))

/-- The timer interrupts the kernel while its `rax` is 7, and the user process then exits: the
kernel resumes with `rax` 1. -/
theorem run_registers_exit : ∃ rs m,
    Run (machineInit (fun _ => ⟨0, CpuState.zero, 0, 0, 0⟩) 16 0x1000) rs m ∧ ∃ r ∈ rs, ¬ r.Intact := by
  have h₁ := Run.handle (r := ⟨.timer, userMachine, CpuState.zero.setRax 7, _, _⟩) run_userMachine
    (@Handles.timer 2 _ _ _ _ rfl)
  have h₂ := Run.handle (r := ⟨.syscall, _, CpuState.zero, _, _⟩) h₁
    (@Handles.syscall 2 _ _ _ _ 0 (by decide) (by decide) rfl)
  refine ⟨_, _, h₂, _, List.mem_cons_self, fun h => ?_⟩
  have := congrArg CpuState.rax (h.1 (by decide))
  exact absurd this (by decide)

theorem not_isExit_of_timer {r : Return} (h : r.event = .timer) : ¬ r.IsExit :=
  fun he => absurd (h.symm.trans he.1) nofun

theorem run_timer_exit : ∃ r₁ r₂ m,
    Run (machineInit (fun _ => ⟨0, CpuState.zero, 0, 0, 0⟩) 16 0x1000) [r₂, r₁] m ∧
      ¬ r₁.IsExit ∧ r₂.pre.sched.OwnPid ∧
      (r₂.pre.saved (r₂.pre.sched.links r₂.pre.sched.current)).rax = 1 ∧
      (r₂.pre.sched.procs (r₂.pre.sched.links r₂.pre.sched.current)).pml4 =
        r₂.pre.sched.kernelPML4 := by
  have h₁ := Run.handle (r := ⟨.timer, userMachine, CpuState.zero.setRax 1, _, _⟩) run_userMachine
    (@Handles.timer 2 _ _ _ _ rfl)
  have h₂ := Run.handle (r := ⟨.syscall, _, CpuState.zero, _, _⟩) h₁
    (@Handles.syscall 2 _ _ _ _ 0 (by decide) (by decide) rfl)
  refine ⟨_, _, _, h₂, not_isExit_of_timer rfl, ?_, rfl, rfl⟩
  unfold Sched.OwnPid
  decide

theorem run_registers_rax_one : ∃ rs m,
    Run (machineInit (fun _ => ⟨0, CpuState.zero, 0, 0, 0⟩) 16 0x1000) rs m ∧ rs.length = 2 ∧
      ∀ r ∈ rs, r.Intact := by
  obtain ⟨r₁, r₂, m, h, htimer, hown, hrax, -⟩ := run_timer_exit
  refine ⟨[r₂, r₁], m, h, rfl, (run_registers h ?_).mpr ?_⟩
  · exact List.forall_mem_cons.mpr ⟨fun _ => hown, List.forall_mem_cons.mpr
      ⟨fun he => absurd he htimer, List.forall_mem_nil _⟩⟩
  · exact List.forall_mem_cons.mpr ⟨fun _ _ => hrax, List.forall_mem_cons.mpr
      ⟨fun he => absurd he htimer, List.forall_mem_nil _⟩⟩

/-! ## Address spaces -/

/-- `current_PML4` and `cr3` are the current process's. -/
def Sched.Loaded (s : Sched) : Prop := s.currentPML4 = s.processPML4 ∧ s.cr3 = s.processPML4

/-- At an exit syscall, the next process of the ring is in the kernel's address space. -/
def Return.ExitKernelSpace (r : Return) : Prop :=
  r.IsExit → r.pre.sched.pids r.pre.sched.current ≠ 0 →
    (r.pre.sched.procs (r.pre.sched.links r.pre.sched.current)).pml4 = r.pre.sched.kernelPML4

/-- Outside the run syscall, the current process's address space is loaded. -/
def Machine.LoadedOutside (m : Machine) : Prop :=
  m.sched.current ∉ m.running → m.sched.Loaded

theorem Sched.loaded_loadPML4 (s : Sched) : (s.loadPML4 s.processPML4).Loaded := ⟨rfl, rfl⟩

theorem Moves.processPML4 (hm : Moves s s') (hc : s'.current = s.current) :
    s'.processPML4 = s.processPML4 := by
  rw [Sched.processPML4, hm.same.pml4, hc]
  rfl

theorem Handles.exit_loaded_iff {r : Return} (hr : Handles r) (h : MachineOk r.pre)
    (he : r.IsExit) (hu : r.pre.sched.OwnPid) : r.post.sched.Loaded ↔ r.ExitKernelSpace := by
  obtain ⟨l, hl⟩ := h.shape
  cases hr with
  | timer _ => exact absurd he.1 nofun
  | @syscall _ m f _ s₁ _ _ _ e =>
    obtain ⟨hm, ⟨h₀, h₁, h₂, -, hnext⟩ | ⟨h₀, -⟩⟩ := hl.syscallHandlerC_spec e
    · have hload : s₁.Loaded ↔ s₁.processPML4 = m.sched.kernelPML4 :=
        ⟨fun h => h.1.symm.trans h₁, fun h => ⟨h₁.trans h.symm, h₂.trans h.symm⟩⟩
      have hproc : s₁.processPML4 = (m.sched.procs s₁.current).pml4 := hm.same.pml4 _
      rcases hnext hu with ⟨hpid, hk, hc⟩ | ⟨hpid, hc, -⟩
      · refine iff_of_true (hload.mpr ?_) fun _ hne => absurd hpid hne
        rw [hproc, hc, hk]
        rfl
      · rw [hc] at hproc
        exact hload.trans ⟨fun e _ _ => hproc.symm.trans e, fun hx => hproc.trans (hx he hpid)⟩
    · exact absurd he.2 h₀
  | @runFailed _ f _ _ hid =>
    have h₀ : f.rax = 0 := he.2
    rw [hid] at h₀
    exact absurd h₀ (by decide)
  | runReturn _ => exact absurd he.1 nofun

theorem Handles.loaded {r : Return} (hr : Handles r) (h : MachineOk r.pre)
    (hl : r.pre.LoadedOutside) (he : ¬ r.IsExit) : r.post.sched.Loaded := by
  obtain ⟨l, hshape⟩ := h.shape
  cases hr with
  | timer e =>
    rw [irqHandlerC_timer] at e
    obtain ⟨s₁, -, rfl, -⟩ := hshape.nextProcess_spec e
    exact s₁.loaded_loadPML4
  | syscall hrun _ e =>
    obtain ⟨hm, ⟨h₀, -⟩ | ⟨-, hc, h₁, h₂⟩⟩ := hshape.syscallHandlerC_spec e
    · exact absurd ⟨rfl, h₀⟩ he
    · obtain ⟨h₃, h₄⟩ := hl hrun
      rw [← hm.processPML4 hc] at h₃ h₄
      exact ⟨h₁.trans h₃, h₂.trans h₄⟩
  | runFailed _ _ => exact Sched.loaded_loadPML4 _
  | runReturn _ => exact Sched.loaded_loadPML4 _

theorem Silent.loadedOutside {m m' : Machine} (hs : Silent m m') (h : MachineOk m) :
    m'.LoadedOutside := by
  cases hs with
  | runAdd _ _ _ => exact fun hc => absurd List.mem_cons_self hc
  | @load p pml4 entry _ hk _ hp =>
    intro _
    obtain ⟨l, hl⟩ := h.shape
    have hc := (hl.ne_of_notMem_blocks hp List.mem_cons_self)
    have : (EitanOS.runAdd m.sched p entry pml4).processPML4 = m.sched.kernelPML4 := by
      rw [Sched.kernelPML4, ← hk]
      exact (addProcess_procs (s := m.sched.loadPML4 m.sched.kernelPML4) entry pml4 false hc).2.2
    exact ⟨this.symm, this.symm⟩

theorem machineInit_loadedOutside (procs : ℕ → Process) (p kernelPML4 : ℕ) :
    (machineInit procs p kernelPML4).LoadedOutside := fun _ => by
  have : (schedInit procs p kernelPML4).processPML4 = kernelPML4 := by
    simp [schedInit, Sched.processPML4]
  exact ⟨this.symm, this.symm⟩

/-- **Address spaces over whole runs** in which no process exits under another's pid: every return
is made in the address space of the current process exactly when, at every exit syscall, the next
process of the ring is in the kernel's. -/
theorem run_address_space {procs : ℕ → Process} {p kernelPML4 : ℕ} {rs : List Return} {m : Machine}
    (h : Run (machineInit procs p kernelPML4) rs m)
    (hu : ∀ r ∈ rs, r.IsExit → r.pre.sched.OwnPid) :
    (∀ r ∈ rs, r.post.sched.Loaded) ↔ ∀ r ∈ rs, r.ExitKernelSpace := by
  have h₀ := machineOk_init procs p kernelPML4
  constructor
  · intro hl r hr he
    obtain ⟨hh, rs', hrun⟩ := h.of_mem hr
    exact (hh.exit_loaded_iff (hrun.ok h₀) he (hu r hr he)).mp (hl r hr) he
  · intro hx
    -- the induction carries that the address space is also right between the returns
    suffices (∀ r ∈ rs, r.post.sched.Loaded) ∧ m.LoadedOutside from this.1
    induction h with
    | nil =>
      exact ⟨fun r hr => absurd hr List.not_mem_nil, machineInit_loadedOutside procs p kernelPML4⟩
    | silent hrun hs ih => exact ⟨(ih hu hx).1, hs.loadedOutside (hrun.ok h₀)⟩
    | @handle rs r hrun hr ih =>
      obtain ⟨ih, hl⟩ := ih (fun r hr => hu r (List.mem_cons_of_mem _ hr))
        fun r hr => hx r (List.mem_cons_of_mem _ hr)
      have hload : r.post.sched.Loaded := by
        by_cases he : r.IsExit
        · exact (hr.exit_loaded_iff (hrun.ok h₀) he (hu r List.mem_cons_self he)).mpr
            (hx r List.mem_cons_self)
        · exact hr.loaded (hrun.ok h₀) hl he
      exact ⟨List.forall_mem_cons.mpr ⟨hload, ih⟩, fun _ => hload⟩

/-- With two user processes, the exit of one resumes the other in the kernel's address space. -/
theorem run_address_space_exit : ∃ rs m,
    Run (machineInit (fun _ => ⟨0, CpuState.zero, 0, 0, 0⟩) 16 0x1000) rs m ∧
      ∃ r ∈ rs, ¬ r.post.sched.Loaded := by
  have h₀ := Run.silent run_userMachine
    (@Silent.load _ 48 0x3000 0x400000 (by decide) rfl (by decide) (by decide))
  have h₁ := Run.handle (r := ⟨.timer, _, CpuState.zero, _, _⟩) h₀ (@Handles.timer 3 _ _ _ _ rfl)
  have h₂ := Run.handle (r := ⟨.syscall, _, CpuState.zero, _, _⟩) h₁
    (@Handles.syscall 3 _ _ _ _ 0 (by decide) (by decide) rfl)
  refine ⟨_, _, h₂, _, List.mem_cons_self, fun h => ?_⟩
  exact absurd h.1 (by decide)

theorem run_address_space_one_user : ∃ rs m,
    Run (machineInit (fun _ => ⟨0, CpuState.zero, 0, 0, 0⟩) 16 0x1000) rs m ∧ rs.length = 2 ∧
      ∀ r ∈ rs, r.post.sched.Loaded := by
  obtain ⟨r₁, r₂, m, h, htimer, hown, -, hspace⟩ := run_timer_exit
  refine ⟨[r₂, r₁], m, h, rfl, (run_address_space h ?_).mpr ?_⟩
  · exact List.forall_mem_cons.mpr ⟨fun _ => hown, List.forall_mem_cons.mpr
      ⟨fun he => absurd he htimer, List.forall_mem_nil _⟩⟩
  · exact List.forall_mem_cons.mpr ⟨fun _ _ => hspace, List.forall_mem_cons.mpr
      ⟨fun he => absurd he htimer, List.forall_mem_nil _⟩⟩

end EitanOS
