import EitanOS.Process.Moves

/-!
# The process ring

`RingOk s l`: the ring has its shape, and the pids on it are distinct: 0, and those of the processes
that were added and not removed. Moves keep it, and so does adding a process while pids do not wrap
around; so it holds after every run (**`sched_ring`**).
-/

namespace EitanOS

open Links

/-- **The ring invariant.** -/
structure RingOk (s : Sched) (l : List ℕ) : Prop extends RingShape s l where
  pids : ((s.current :: l).map s.pids).Perm (0 :: s.alive)
  alive_nodup : s.alive.Nodup
  alive_le : ∀ pid ∈ s.alive, pid ≠ 0 ∧ pid ≤ s.highestPid

variable {s s' : Sched} {l : List ℕ} {p : ℕ}

theorem RingOk.pids_nodup (h : RingOk s l) : ((s.current :: l).map s.pids).Nodup :=
  h.pids.nodup_iff.mpr (List.nodup_cons.mpr ⟨fun h₀ => (h.alive_le 0 h₀).1 rfl, h.alive_nodup⟩)

theorem RingOk.init (procs : ℕ → Process) (p kernelPML4 : ℕ) :
    RingOk (schedInit procs p kernelPML4) [] where
  ring := ring_nil (by simp [schedInit, Sched.links])
  blocks := List.Perm.refl _
  kernel_mem := List.mem_cons_self
  kernel_pid := by simp [schedInit, Sched.pids]
  pids := by simp [schedInit, Sched.pids]
  alive_nodup := List.nodup_nil
  alive_le := by simp [schedInit]

/-- **Adding a process**, when its pid does not wrap around. -/
theorem RingOk.add (h : RingOk s l) (hp : p ∉ s.blocks) (hpid : s.highestPid.toNat + 1 < 2 ^ 32)
    (entry : UInt64) (pml4 : ℕ) (k : Bool) : RingOk (addProcess s p entry pml4 k).1 (p :: l) := by
  have hlt : ∀ pid ≤ s.highestPid, pid < s.highestPid + 1 := by
    intro pid hle
    rw [UInt32.lt_iff_toNat_lt, UInt32.toNat_add]
    rw [UInt32.le_iff_toNat_le] at hle
    have : (1 : UInt32).toNat = 1 := rfl
    omega
  have hpc := (h.ne_of_notMem_blocks hp List.mem_cons_self).symm
  refine ⟨h.toRingShape.add entry pml4 k hp, ?_, ?_, ?_⟩
  · have hpids : ∀ a ∈ s.current :: l, (addProcess s p entry pml4 k).1.pids a = s.pids a :=
      fun a ha => (addProcess_procs entry pml4 k (h.ne_of_notMem_blocks hp ha)).1
    have hnew : (addProcess s p entry pml4 k).1.pids p = s.highestPid + 1 := by
      rw [Sched.pids, addProcess_new entry pml4 k hpc]
    have hperm : ((addProcess s p entry pml4 k).1.current :: p :: l).Perm (p :: s.current :: l) :=
      List.Perm.swap _ _ _
    refine (hperm.map _).trans ?_
    rw [List.map_cons, hnew, List.map_congr_left hpids]
    exact (List.Perm.cons _ h.pids).trans (List.Perm.swap _ _ _)
  · exact List.nodup_cons.mpr
      ⟨fun hm => UInt32.lt_irrefl _ (hlt _ (h.alive_le _ hm).2), h.alive_nodup⟩
  · intro pid hm
    rcases List.mem_cons.mp hm with rfl | hm
    · refine ⟨fun e => ?_, UInt32.le_refl _⟩
      have h₀ := hlt 0 UInt32.zero_le
      rw [e] at h₀
      exact UInt32.lt_irrefl _ h₀
    · exact ⟨(h.alive_le _ hm).1, UInt32.le_of_lt (hlt _ (h.alive_le _ hm).2)⟩

/-- **Moves keep the invariant.** -/
theorem RingOk.move (h : RingOk s l) (hm : Move s s') : ∃ l', RingOk s' l' := by
  have hpids : s'.pids = s.pids := funext hm.same.pids
  cases hm with
  | signals p v =>
    exact ⟨l, h.modify p (fun _ => rfl) fun _ => rfl, by rw [hpids]; exact h.pids, h.alive_nodup,
      h.alive_le⟩
  | load t => exact ⟨l, h.loadPML4 t, h.pids, h.alive_nodup, h.alive_le⟩
  | advance =>
    obtain ⟨l', hl', hperm⟩ := h.rebase (h.ring.next_mem List.mem_cons_self)
    exact ⟨l', hl', (hperm.map _).trans h.pids, h.alive_nodup, h.alive_le⟩
  | @unlink prev hp h₀ =>
    obtain ⟨l', hl', hperm⟩ := h.toRingShape.unlink hp h₀
    refine ⟨l', hl', ?_, h.alive_nodup.erase _,
      fun pid hm => h.alive_le pid (List.mem_of_mem_erase hm)⟩
    -- the pid that goes is not 0, so it goes from the list of those alive
    have h₁ := ((hperm.map s.pids).trans h.pids).erase (s.pids (s.links prev))
    rw [List.map_cons, List.erase_cons_head, List.erase_cons_tail (by simpa using h₀.symm)] at h₁
    rw [hpids]
    exact h₁

theorem RingOk.moves (h : RingOk s l) (hm : Moves s s') : ∃ l', RingOk s' l' := by
  induction hm with
  | refl => exact ⟨l, h⟩
  | tail _ hm ih =>
    obtain ⟨l', ih⟩ := ih
    exact ih.move hm

theorem RingOk.save (h : RingOk s l) (regs : CpuState) : RingOk (saveRegs s regs) l := by
  refine ⟨h.toRingShape.save regs, ?_, h.alive_nodup, h.alive_le⟩
  rw [saveRegs_pids]
  exact h.pids

/-! ## Runs -/

/-- The states after a run of the scheduler's operations with `n` additions. -/
inductive SchedReach (procs : ℕ → Process) (kernelPML4 : ℕ) : ℕ → Sched → Prop
  | init {p : ℕ} (hp : p ≠ 0) : SchedReach procs kernelPML4 0 (schedInit procs p kernelPML4)
  | add {n p pml4 : ℕ} {s : Sched} {entry : UInt64} {k : Bool} (h : SchedReach procs kernelPML4 n s)
      (h₀ : p ≠ 0) (hp : p ∉ s.blocks) :
      SchedReach procs kernelPML4 (n + 1) (addProcess s p entry pml4 k).1
  | signal {n fuel : ℕ} {s s' : Sched} {pid mask : UInt32} (h : SchedReach procs kernelPML4 n s)
      (e : sendSignals fuel s pid mask = some s') : SchedReach procs kernelPML4 n s'
  | next {n fuel : ℕ} {s s' : Sched} {regs regs' : CpuState} (h : SchedReach procs kernelPML4 n s)
      (e : nextProcess fuel s regs = some (s', regs')) : SchedReach procs kernelPML4 n s'
  | exit {n fuel : ℕ} {s s' : Sched} {regs : CpuState} (h : SchedReach procs kernelPML4 n s)
      (h₀ : s.pids s.current ≠ 0) (e : schedExit fuel s = some (s', regs)) :
      SchedReach procs kernelPML4 n s'
  | remove {n fuel : ℕ} {s s' : Sched} {pid : UInt32} {b : Bool}
      (h : SchedReach procs kernelPML4 n s) (e : removeProcess fuel s pid = some (s', b)) :
      SchedReach procs kernelPML4 n s'

theorem schedReach_ok {procs : ℕ → Process} {kernelPML4 n : ℕ}
    (h : SchedReach procs kernelPML4 n s) (hn : n < 2 ^ 32) :
    (∃ l, RingOk s l) ∧ s.highestPid.toNat = n := by
  induction h with
  | init _ => exact ⟨⟨[], RingOk.init procs _ kernelPML4⟩, rfl⟩
  | add _ _ hp ih =>
    obtain ⟨⟨l, h⟩, hpid⟩ := ih (by omega)
    refine ⟨⟨_, h.add hp (by omega) _ _ _⟩, ?_⟩
    simp only [addProcess, Sched.modify]
    rw [UInt32.toNat_add, hpid]
    exact Nat.mod_eq_of_lt hn
  | signal _ e ih =>
    obtain ⟨⟨l, h⟩, hpid⟩ := ih hn
    have hm := sendSignals_moves e
    exact ⟨h.moves hm, hm.same.highestPid ▸ hpid⟩
  | next _ e ih =>
    obtain ⟨⟨l, h⟩, hpid⟩ := ih hn
    obtain ⟨s₁, hm, rfl, -⟩ := h.nextProcess_spec e
    exact ⟨(h.save _).moves (hm.tail (.load _)), hm.same.highestPid ▸ hpid⟩
  | exit _ _ e ih =>
    obtain ⟨⟨l, h⟩, hpid⟩ := ih hn
    obtain ⟨hm, -⟩ := h.schedExit_spec e
    exact ⟨h.moves hm, hm.same.highestPid ▸ hpid⟩
  | remove _ e ih =>
    obtain ⟨⟨l, h⟩, hpid⟩ := ih hn
    obtain ⟨hm, -⟩ := h.removeProcess_moves e
    exact ⟨h.moves hm, hm.same.highestPid ▸ hpid⟩

/-- **The process ring**, after every run of the scheduler's operations with fewer than `2 ^ 32`
additions: the `next` pointers from `current_process` form one cycle without repetitions; it holds
`kernel_process`, under pid 0, and exactly the blocks that are allocated; their pids are distinct
and are those of the processes added and not removed; and every operation returns. -/
theorem sched_ring {procs : ℕ → Process} {kernelPML4 n : ℕ} {s : Sched}
    (h : SchedReach procs kernelPML4 n s) (hn : n < 2 ^ 32) :
    ∃ l, Ring s.links s.current l ∧ s.kernel ∈ s.current :: l ∧ s.pids s.kernel = 0 ∧
      (∀ p, p ∈ s.current :: l ↔ p ∈ s.blocks) ∧
      ((s.current :: l).map s.pids).Perm (0 :: s.alive) ∧ ((s.current :: l).map s.pids).Nodup ∧
      ∀ fuel, s.blocks.length ≤ fuel →
        (∀ pid mask, (sendSignals fuel s pid mask).isSome = true) ∧
        (∀ regs, (nextProcess fuel s regs).isSome = true) ∧ (schedExit fuel s).isSome = true ∧
        ∀ pid, (removeProcess fuel s pid).isSome = true := by
  obtain ⟨⟨l, h⟩, -⟩ := schedReach_ok h hn
  exact ⟨l, h.ring, h.kernel_mem, h.kernel_pid, fun p => h.blocks.mem_iff.symm, h.pids,
    h.pids_nodup, fun fuel hl => h.returns hl⟩

/-- The kernel process in block 16 and a user process in block 32. -/
def twoProcesses : Sched :=
  (addProcess (schedInit (fun _ => ⟨0, CpuState.zero, 0, 0, 0⟩) 16 0x1000) 32 0x400000 0x2000 false).1

theorem sched_ring_two_processes :
    twoProcesses.alive = [1] ∧ ∃ l, Ring twoProcesses.links 16 l ∧
      ((16 :: l).map twoProcesses.pids).Perm [0, 1] := by
  have h : SchedReach (fun _ => ⟨0, CpuState.zero, 0, 0, 0⟩) 0x1000 1 twoProcesses :=
    .add (.init (by decide)) (by decide) (by decide)
  obtain ⟨l, hr, -, -, -, hp, -⟩ := sched_ring h (by decide)
  exact ⟨rfl, l, hr, hp⟩

end EitanOS
