import EitanOS.Process.Scheduler
import Mathlib.Logic.Relation

/-!
# The moves the scheduler is made of

* `RingShape s l`: `current_process` and the processes of `l` form one ring; its nodes are the
  allocated blocks, the kernel process among them.
* `Move`: the four edits every scheduling operation is composed of. **`Move.shape`**: they keep the
  shape; `Moves.same`: they keep every process's registers, pid and address space.
* **`removeProcess_moves`**, `handleSignals_moves`, **`nextLoop_moves`**: on a ring, the operations
  are sequences of moves, and they return.
-/

namespace EitanOS

open Links

/-- **The shape of the process ring.** -/
structure RingShape (s : Sched) (l : List ℕ) : Prop where
  ring : Ring s.links s.current l
  blocks : s.blocks.Perm (s.current :: l)
  kernel_mem : s.kernel ∈ s.current :: l
  kernel_pid : s.pids s.kernel = 0

variable {s s' s₁ : Sched} {k k' l : List ℕ} {p q : ℕ} {fuel : ℕ}

theorem RingShape.length_lt (h : RingShape s l) : l.length < s.blocks.length := by
  rw [h.blocks.length_eq]
  exact Nat.lt_succ_self _

theorem RingShape.congr (h : RingShape s l) (h₁ : s'.links = s.links) (h₂ : s'.pids = s.pids)
    (h₃ : s'.blocks = s.blocks) (h₄ : s'.current = s.current) (h₅ : s'.kernel = s.kernel) :
    RingShape s' l :=
  ⟨by rw [h₁, h₄]; exact h.ring, by rw [h₃, h₄]; exact h.blocks,
    by rw [h₄, h₅]; exact h.kernel_mem, by rw [h₂, h₅]; exact h.kernel_pid⟩

theorem modify_links (s : Sched) (p : ℕ) {f : Process → Process} (h : ∀ q, (f q).next = q.next) :
    (s.modify p f).links = s.links := by
  funext q
  rcases eq_or_ne q p with rfl | hq
  · simp [Sched.links, Sched.modify, h]
  · simp [Sched.links, Sched.modify, Function.update_of_ne hq]

theorem modify_pids (s : Sched) (p : ℕ) {f : Process → Process} (h : ∀ q, (f q).pid = q.pid) :
    (s.modify p f).pids = s.pids := by
  funext q
  rcases eq_or_ne q p with rfl | hq
  · simp [Sched.pids, Sched.modify, h]
  · simp [Sched.pids, Sched.modify, Function.update_of_ne hq]

theorem RingShape.modify (h : RingShape s l) (p : ℕ) {f : Process → Process}
    (h₁ : ∀ q, (f q).next = q.next) (h₂ : ∀ q, (f q).pid = q.pid) : RingShape (s.modify p f) l :=
  h.congr (modify_links s p h₁) (modify_pids s p h₂) rfl rfl rfl

theorem RingShape.loadPML4 (h : RingShape s l) (t : ℕ) : RingShape (s.loadPML4 t) l := { h with }

theorem RingShape.rebase (h : RingShape s l) (hq : q ∈ s.current :: l) :
    ∃ l', RingShape { s with current := q } l' ∧ (q :: l').Perm (s.current :: l) := by
  obtain ⟨l', hr, hp⟩ := h.ring.rebase hq
  exact ⟨l', ⟨hr, h.blocks.trans hp.symm, hp.mem_iff.mpr h.kernel_mem, h.kernel_pid⟩, hp⟩

/-! ## Adding a process -/

section Add

variable (entry : UInt64) (pml4 : ℕ) (k : Bool)

theorem addProcess_procs (hq : q ≠ p) :
    ((addProcess s p entry pml4 k).1.procs q).pid = (s.procs q).pid ∧
      ((addProcess s p entry pml4 k).1.procs q).regs = (s.procs q).regs ∧
      ((addProcess s p entry pml4 k).1.procs q).pml4 = (s.procs q).pml4 := by
  rcases eq_or_ne q s.current with rfl | h₁
  · simp [addProcess, Sched.modify, hq]
  · simp [addProcess, Sched.modify, h₁, hq]

theorem addProcess_new (hp : p ≠ s.current) :
    ((addProcess s p entry pml4 k).1.procs p) =
      ⟨s.highestPid + 1, initialRegs entry k, 0, pml4, s.links s.current⟩ := by
  simp [addProcess, Sched.modify, hp]

theorem RingShape.ne_of_notMem_blocks (h : RingShape s l) (hp : p ∉ s.blocks)
    (hq : q ∈ s.current :: l) : q ≠ p := by
  rintro rfl
  exact hp (h.blocks.mem_iff.mpr hq)

/-- **`process_scheduler_add_process` links the new block** after `current_process`. -/
theorem RingShape.add (h : RingShape s l) (hp : p ∉ s.blocks) :
    RingShape (addProcess s p entry pml4 k).1 (p :: l) := by
  have hpl : p ∉ s.current :: l := fun h' => hp (h.blocks.mem_iff.mpr h')
  have hpc : p ≠ s.current := (h.ne_of_notMem_blocks hp List.mem_cons_self).symm
  refine ⟨h.ring.insert hpl ?_ ?_ fun a ha => ?_, ?_, ?_, ?_⟩
  · simp [addProcess, Sched.links, Sched.modify]
  · rw [Sched.links, addProcess_new entry pml4 k hpc]
  · have h₁ : a ≠ s.current := fun e => (List.nodup_cons.mp h.ring.nodup).1 (e ▸ ha)
    have h₂ : a ≠ p := fun e => hpl (e ▸ List.mem_cons_of_mem _ ha)
    simp [addProcess, Sched.links, Sched.modify, h₁, h₂]
  · exact ((List.Perm.cons p h.blocks).trans (List.Perm.swap _ _ _) :)
  · rcases List.mem_cons.mp h.kernel_mem with e | e
    · exact List.mem_cons.mpr (Or.inl e)
    · exact List.mem_cons_of_mem _ (List.mem_cons_of_mem _ e)
  · have hk := h.ne_of_notMem_blocks hp h.kernel_mem
    exact (addProcess_procs entry pml4 k hk).1.trans h.kernel_pid

end Add

/-! ## Moves -/

/-- What moves leave alone. -/
structure SameRecords (s s' : Sched) : Prop where
  regs : ∀ p, (s'.procs p).regs = (s.procs p).regs
  pids : ∀ p, s'.pids p = s.pids p
  pml4 : ∀ p, (s'.procs p).pml4 = (s.procs p).pml4
  kernel : s'.kernel = s.kernel
  highestPid : s'.highestPid = s.highestPid

theorem SameRecords.refl (s : Sched) : SameRecords s s :=
  ⟨fun _ => rfl, fun _ => rfl, fun _ => rfl, rfl, rfl⟩

theorem SameRecords.trans {s₁ s₂ s₃ : Sched} (h : SameRecords s₁ s₂) (h' : SameRecords s₂ s₃) :
    SameRecords s₁ s₃ :=
  ⟨fun p => (h'.regs p).trans (h.regs p), fun p => (h'.pids p).trans (h.pids p),
    fun p => (h'.pml4 p).trans (h.pml4 p), h'.kernel.trans h.kernel,
    h'.highestPid.trans h.highestPid⟩

theorem sameRecords_modify (s : Sched) (p : ℕ) {f : Process → Process}
    (h₁ : ∀ q, (f q).regs = q.regs) (h₂ : ∀ q, (f q).pid = q.pid) (h₃ : ∀ q, (f q).pml4 = q.pml4) :
    SameRecords s (s.modify p f) := by
  refine ⟨fun q => ?_, fun q => ?_, fun q => ?_, rfl, rfl⟩ <;>
    rcases eq_or_ne q p with rfl | hq <;>
    simp [Sched.pids, Sched.modify, *]

/-- **The moves**: changing a process's pending signals, loading an address space, advancing
`current_process`, and removing the process after `prev`, which is not the kernel's. -/
inductive Move (s : Sched) : Sched → Prop
  | signals (p : ℕ) (v : UInt32 → UInt32) :
      Move s (s.modify p fun q => { q with pendingSignals := v q.pendingSignals })
  | load (t : ℕ) : Move s (s.loadPML4 t)
  | advance : Move s { s with current := s.links s.current }
  | unlink {prev : ℕ} (hp : prev ∈ s.blocks) (h₀ : s.pids (s.links prev) ≠ 0) :
      Move s (unlinkProcess s prev)

/-- Sequences of moves. -/
abbrev Moves : Sched → Sched → Prop := Relation.ReflTransGen Move

theorem Move.same (h : Move s s') : SameRecords s s' := by
  cases h with
  | signals p v => exact sameRecords_modify s p (fun _ => rfl) (fun _ => rfl) fun _ => rfl
  | load t => exact ⟨fun _ => rfl, fun _ => rfl, fun _ => rfl, rfl, rfl⟩
  | advance => exact ⟨fun _ => rfl, fun _ => rfl, fun _ => rfl, rfl, rfl⟩
  | @unlink prev _ _ =>
    have h := sameRecords_modify s prev (f := fun p => { p with next := s.links (s.links prev) })
      (fun _ => rfl) (fun _ => rfl) fun _ => rfl
    exact ⟨h.regs, h.pids, h.pml4, rfl, rfl⟩

/-- **Moves keep every process's records.** -/
theorem Moves.same (h : Moves s s') : SameRecords s s' := by
  induction h with
  | refl => exact SameRecords.refl s
  | tail _ hm ih => exact ih.trans hm.same

theorem unlinkProcess_links (s : Sched) (prev q : ℕ) :
    (unlinkProcess s prev).links q = if q = prev then s.links (s.links prev) else s.links q := by
  rcases eq_or_ne q prev with rfl | hq
  · simp [unlinkProcess, Sched.links, Sched.modify, Sched.loadPML4]
  · simp [unlinkProcess, Sched.links, Sched.modify, Sched.loadPML4, hq]

theorem RingShape.rebase_append (h : RingShape s (k ++ q :: k')) :
    RingShape { s with current := q } (k' ++ s.current :: k) := by
  have hp : (s.current :: (k ++ q :: k')).Perm (q :: (k' ++ s.current :: k)) :=
    (List.perm_append_comm : ((s.current :: k) ++ (q :: k')).Perm ((q :: k') ++ (s.current :: k)))
  exact ⟨h.ring.rebase_append, h.blocks.trans hp, hp.mem_iff.mp h.kernel_mem, h.kernel_pid⟩

/-- **Unlinking the current process**, which is not the kernel's. -/
theorem RingShape.unlink_current (h : RingShape s (q :: l)) {prev : ℕ} (hp : prev ∈ s.blocks)
    (hl : s.links prev = s.current) (h₀ : s.pids s.current ≠ 0) :
    RingShape (unlinkProcess s prev) l ∧ (unlinkProcess s prev).current = q := by
  have hq : s.links s.current = q := h.ring.next_eq
  have hcur : (unlinkProcess s prev).current = q := by
    rw [← hq, ← hl]
    rfl
  have hne : prev ≠ s.current := by
    rintro rfl
    exact (List.nodup_cons.mp h.ring.nodup).1 (by simp [← hq, hl])
  have hmem : prev ∈ q :: l := (List.mem_cons.mp (h.blocks.mem_iff.mp hp)).resolve_left hne
  have hr : Ring (unlinkProcess s prev).links q l := by
    refine h.ring.unlink hmem hl ?_ fun b hb => ?_
    · rw [unlinkProcess_links, if_pos rfl, hl]
    · rw [unlinkProcess_links, if_neg hb]
  refine ⟨⟨hcur.symm ▸ hr, ?_, ?_, ?_⟩, hcur⟩
  · have h₁ := h.blocks.erase s.current
    rw [List.erase_cons_head] at h₁
    rw [hcur]
    exact (congrArg s.blocks.erase hl ▸ h₁ :)
  · rw [hcur]
    refine (List.mem_cons.mp h.kernel_mem).resolve_left fun e => h₀ ?_
    rw [← e]
    exact h.kernel_pid
  · exact ((Move.unlink hp (hl ▸ h₀)).same.pids s.kernel).trans h.kernel_pid

/-- **Unlinking a process** other than the kernel's. -/
theorem RingShape.unlink (h : RingShape s l) {prev : ℕ} (hp : prev ∈ s.blocks)
    (h₀ : s.pids (s.links prev) ≠ 0) :
    ∃ l', RingShape (unlinkProcess s prev) l' ∧
      (s.links prev :: (unlinkProcess s prev).current :: l').Perm (s.current :: l) := by
  obtain ⟨k, hs, hperm⟩ := h.rebase (h.ring.next_mem (h.blocks.mem_iff.mp hp))
  cases k with
  | nil =>
    -- the ring is not the process alone: it also holds the kernel process
    have hk := hperm.mem_iff.mpr h.kernel_mem
    rw [List.mem_singleton] at hk
    exact absurd (hk ▸ h.kernel_pid) h₀
  | cons x k =>
    obtain ⟨hs', hcur⟩ := hs.unlink_current hp rfl h₀
    exact ⟨k, hs', (congrArg (fun y => s.links prev :: y :: k) hcur).symm ▸ hperm⟩

/-- **Moves keep the shape.** -/
theorem Move.shape (h : RingShape s l) (hm : Move s s') : ∃ l', RingShape s' l' := by
  cases hm with
  | signals p v => exact ⟨l, h.modify p (fun _ => rfl) fun _ => rfl⟩
  | load t => exact ⟨l, h.loadPML4 t⟩
  | advance =>
    obtain ⟨l', hl', -⟩ := h.rebase (h.ring.next_mem List.mem_cons_self)
    exact ⟨l', hl'⟩
  | unlink hp h₀ =>
    obtain ⟨l', hl', -⟩ := h.unlink hp h₀
    exact ⟨l', hl'⟩

theorem Moves.shape (h : RingShape s l) (hm : Moves s s') : ∃ l', RingShape s' l' := by
  induction hm with
  | refl => exact ⟨l, h⟩
  | tail _ hm ih =>
    obtain ⟨l', ih⟩ := ih
    exact hm.shape ih

/-! ## The operations are sequences of moves -/

/-- **`process_scheduler_remove_process`**: it takes a process with the pid out of the ring, or
there is none but the kernel's. -/
theorem RingShape.removeProcess_spec (h : RingShape s l) {pid : UInt32} {r : Sched × Bool}
    (e : removeProcess fuel s pid = some r) :
    (r = (s, false) ∧ (pid = 0 ∨ ∀ q ∈ s.current :: l, s.pids q ≠ pid)) ∨
      ∃ prev ∈ s.blocks, r = (unlinkProcess s prev, true) ∧ s.pids (s.links prev) = pid ∧
        pid ≠ 0 := by
  unfold removeProcess at e
  split_ifs at e with h₀
  · exact Or.inl ⟨(Option.some.inj e).symm, Or.inl h₀⟩
  obtain ⟨o, ho, rfl⟩ := Option.map_eq_some_iff.mp e
  cases o with
  | none =>
    refine Or.inl ⟨rfl, Or.inr fun q hq e => ?_⟩
    -- its predecessor would have passed the test
    obtain ⟨a, ha, rfl⟩ := h.ring.exists_prev hq
    simpa [e] using h.ring.find_none ho a ha
  | some prev =>
    obtain ⟨hp, ht⟩ := h.ring.find_some ho
    exact Or.inr ⟨prev, h.blocks.mem_iff.mpr hp, rfl, by simpa using ht, h₀⟩

theorem RingShape.length_unlink (h : RingShape s l) {prev : ℕ} (hp : prev ∈ s.blocks) :
    (unlinkProcess s prev).blocks.length < s.blocks.length := by
  have hx : s.links prev ∈ s.blocks :=
    h.blocks.mem_iff.mpr (h.ring.next_mem (h.blocks.mem_iff.mp hp))
  have h₁ : (unlinkProcess s prev).blocks.length = s.blocks.length - 1 :=
    List.length_erase_of_mem hx
  have h₂ := List.length_pos_of_mem hx
  omega

theorem RingShape.removeProcess_moves (h : RingShape s l) {pid : UInt32} {b : Bool}
    (e : removeProcess fuel s pid = some (s', b)) :
    Moves s s' ∧ (b = true → s'.blocks.length < s.blocks.length) ∧ (b = false → s' = s) := by
  rcases h.removeProcess_spec e with ⟨e, -⟩ | ⟨prev, hp, e, hpid, h₀⟩
  · obtain ⟨rfl, rfl⟩ := Prod.mk.inj e
    exact ⟨.refl, nofun, fun _ => rfl⟩
  · obtain ⟨rfl, rfl⟩ := Prod.mk.inj e
    exact ⟨.single (.unlink hp (hpid ▸ h₀)), fun _ => h.length_unlink hp, nofun⟩

theorem RingShape.removeProcess_isSome (h : RingShape s l) (hl : s.blocks.length ≤ fuel)
    (pid : UInt32) : (removeProcess fuel s pid).isSome = true := by
  unfold removeProcess
  split_ifs
  · rfl
  · rw [Option.isSome_map]
    exact h.ring.find_isSome (h.length_lt.trans_le hl)

theorem RingShape.killOn_moves (h : RingShape s l) {sigs sig : UInt32} {b : Bool}
    (e : killOn fuel s p sigs sig = some (s', b)) :
    Moves s s' ∧ (b = true → s'.blocks.length < s.blocks.length) ∧ (b = false → s' = s) := by
  unfold killOn at e
  split_ifs at e
  · exact h.removeProcess_moves e
  · obtain ⟨rfl, rfl⟩ := Prod.mk.inj (Option.some.inj e)
    exact ⟨.refl, nofun, fun _ => rfl⟩

theorem RingShape.killOn_isSome (h : RingShape s l) (hl : s.blocks.length ≤ fuel) (p : ℕ)
    (sigs sig : UInt32) : (killOn fuel s p sigs sig).isSome = true := by
  unfold killOn
  split_ifs
  · exact h.removeProcess_isSome hl _
  · rfl

/-- The state `handle_signals` works on. -/
abbrev clearSignals (s : Sched) (p : ℕ) : Sched :=
  s.modify p fun q => { q with pendingSignals := 0 }

theorem RingShape.clear (h : RingShape s l) (p : ℕ) :
    RingShape (clearSignals s p) l := h.modify p (fun _ => rfl) fun _ => rfl

/-- **`handle_signals`** moves, and frees a block when it reports that it killed. -/
theorem RingShape.handleSignals_moves (h : RingShape s l) {b : Bool}
    (e : handleSignals fuel s p = some (s', b)) :
    Moves s s' ∧ (b = true → s'.blocks.length < s.blocks.length) := by
  have hc : Moves s (clearSignals s p) := .single (.signals p fun _ => 0)
  obtain ⟨⟨s₁, k⟩, e₁, e⟩ := Option.bind_eq_some_iff.mp e
  obtain ⟨hm, hk, hs⟩ := (h.clear p).killOn_moves e₁
  cases k with
  | true =>
    obtain ⟨rfl, rfl⟩ := Prod.mk.inj (Option.some.inj e)
    exact ⟨hc.trans hm, hk⟩
  | false =>
    obtain rfl := hs rfl
    obtain ⟨hm', hk', -⟩ := (h.clear p).killOn_moves e
    exact ⟨hc.trans hm', hk'⟩

theorem RingShape.handleSignals_isSome (h : RingShape s l) (hl : s.blocks.length ≤ fuel) (p : ℕ) :
    (handleSignals fuel s p).isSome = true := by
  have hc := h.clear p
  obtain ⟨⟨s₁, b⟩, e₁⟩ := Option.isSome_iff_exists.mp
    (hc.killOn_isSome hl p (s.procs p).pendingSignals sigAbrt)
  unfold handleSignals
  dsimp only
  rw [e₁, Option.bind_some]
  cases b with
  | true => rfl
  | false =>
    obtain rfl := (hc.killOn_moves e₁).2.2 rfl
    exact hc.killOn_isSome hl _ _ _

theorem RingShape.advance (h : RingShape s l) :
    ∃ l', RingShape { s with current := s.links s.current } l' := Move.advance.shape h

/-- **The scheduling loop moves.** -/
theorem RingShape.nextLoop_moves (h : RingShape s l) {n : ℕ} (e : nextLoop fuel n s = some s') :
    Moves s s' := by
  induction n generalizing s l with
  | zero => exact absurd e (by simp [nextLoop])
  | succ n ih =>
    obtain ⟨l₁, h₁⟩ := h.advance
    rw [nextLoop] at e
    obtain ⟨⟨s₂, b⟩, e₂, e⟩ := Option.bind_eq_some_iff.mp e
    have hm := (h₁.handleSignals_moves e₂).1
    cases b with
    | true =>
      obtain ⟨l₂, h₂⟩ := hm.shape h₁
      exact .head .advance (hm.trans (ih h₂ e))
    | false =>
      obtain rfl := Option.some.inj e
      exact .head .advance hm

theorem RingShape.nextLoop_isSome (h : RingShape s l) (hl : s.blocks.length ≤ fuel) {n : ℕ}
    (hn : s.blocks.length ≤ n) : (nextLoop fuel n s).isSome = true := by
  induction n generalizing s l with
  | zero =>
    have := h.length_lt
    omega
  | succ n ih =>
    obtain ⟨l₁, h₁⟩ := h.advance
    obtain ⟨⟨s₂, b⟩, e₂⟩ := Option.isSome_iff_exists.mp
      (h₁.handleSignals_isSome hl (s.links s.current))
    rw [nextLoop]
    dsimp only
    rw [e₂, Option.bind_some]
    cases b with
    | true =>
      obtain ⟨hm, hlt⟩ := h₁.handleSignals_moves e₂
      obtain ⟨l₂, h₂⟩ := hm.shape h₁
      have hlt : s₂.blocks.length < s.blocks.length := hlt rfl
      exact ih h₂ (hlt.le.trans hl) (Nat.lt_succ_iff.mp (hlt.trans_le hn))
    | false => rfl

theorem sendSignals_moves {pid mask : UInt32} (e : sendSignals fuel s pid mask = some s') :
    Moves s s' := by
  obtain ⟨o, -, rfl⟩ := Option.map_eq_some_iff.mp e
  cases o with
  | none => exact .refl
  | some p => exact .single (.signals p (· ||| mask))

/-- The state `process_scheduler_next_process` schedules from: the frame is saved and the kernel's
address space loaded. -/
def saveRegs (s : Sched) (regs : CpuState) : Sched :=
  (s.modify s.current fun p => { p with regs := regs }).loadPML4
    (s.modify s.current fun p => { p with regs := regs }).kernelPML4

theorem saveRegs_pids (s : Sched) (regs : CpuState) : (saveRegs s regs).pids = s.pids :=
  modify_pids s s.current (f := fun p => { p with regs := regs }) fun _ => rfl

theorem RingShape.save (h : RingShape s l) (regs : CpuState) :
    RingShape (saveRegs s regs) l :=
  (h.modify s.current (f := fun p => { p with regs := regs }) (fun _ => rfl) fun _ => rfl).loadPML4 _

/-- **`process_scheduler_next_process`**: save the frame, move, and switch to what is current. -/
theorem RingShape.nextProcess_spec (h : RingShape s l) {regs out : CpuState}
    (e : nextProcess fuel s regs = some (s', out)) :
    ∃ s₁, Moves (saveRegs s regs) s₁ ∧ s' = s₁.loadPML4 s₁.processPML4 ∧
      out = (s₁.procs s₁.current).regs := by
  obtain ⟨s₁, e₁, e⟩ := Option.map_eq_some_iff.mp e
  obtain ⟨rfl, rfl⟩ := Prod.mk.inj e
  exact ⟨s₁, (h.save regs).nextLoop_moves e₁, rfl, rfl⟩

/-- **`process_scheduler_exit`**: move, and restore what is current. -/
theorem RingShape.schedExit_spec (h : RingShape s l) {out : CpuState}
    (e : schedExit fuel s = some (s', out)) :
    Moves s s' ∧ out = (s'.procs s'.current).regs := by
  obtain ⟨⟨s₁, b⟩, e₁, e⟩ := Option.map_eq_some_iff.mp e
  obtain ⟨rfl, rfl⟩ := Prod.mk.inj e
  exact ⟨(h.removeProcess_moves e₁).1, rfl⟩

/-- **Every operation returns** when its loops may iterate as often as there are processes. -/
theorem RingShape.returns (h : RingShape s l) (hl : s.blocks.length ≤ fuel) :
    (∀ pid mask, (sendSignals fuel s pid mask).isSome = true) ∧
      (∀ regs, (nextProcess fuel s regs).isSome = true) ∧
      (schedExit fuel s).isSome = true ∧
      ∀ pid, (removeProcess fuel s pid).isSome = true := by
  refine ⟨fun pid mask => ?_, fun regs => ?_, ?_, h.removeProcess_isSome hl⟩
  · rw [sendSignals, Option.isSome_map]
    exact h.ring.find_isSome (h.length_lt.trans_le hl)
  · rw [nextProcess, Option.isSome_map]
    exact (h.save regs).nextLoop_isSome hl hl
  · rw [schedExit, Option.isSome_map]
    exact h.removeProcess_isSome hl _

end EitanOS
