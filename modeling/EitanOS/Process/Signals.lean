import EitanOS.Process.Context

/-!
# Killed processes

A process that was sent `SIG_KILL` or `SIG_ABRT` while it was not running is `Doomed`: the signal
stays pending until the scheduler selects it.

* `RingShape.handleSignals_cases`: what `handle_signals` does to the selected process.
* `RingShape.nextLoop_doomed`: the scheduling loop removes the doomed processes it selects and does
  not stop at one.
* **`killed_never_runs`**: over whole runs, a killed process is never resumed exactly when it is
  never next in the ring at an exit syscall: `process_scheduler_exit` does not look at signals.
* **`exit_resumes_killed`**: a run in which an exit resumes a killed process.
-/

namespace EitanOS

/-- A signal of the mask removes the process. -/
def Kills (mask : UInt32) : Prop := mask &&& sigAbrt ≠ 0 ∨ mask &&& sigKill ≠ 0

instance (mask : UInt32) : Decidable (Kills mask) := inferInstanceAs (Decidable (_ ∨ _))

/-- `p->pending_signals`, for all `p`. -/
def Sched.pending (s : Sched) (p : ℕ) : UInt32 := (s.procs p).pendingSignals

/-- No two processes have the same pid. -/
def Sched.PidsDistinct (s : Sched) : Prop :=
  ∀ p ∈ s.blocks, ∀ q ∈ s.blocks, s.pids p = s.pids q → p = q

/-- While it is in the ring, a signal that removes `p` is pending. -/
def Sched.Condemned (s : Sched) (p : ℕ) : Prop :=
  p ∈ s.blocks → Kills (s.pending p) ∧ s.pids p ≠ 0

/-- The same, and `p` is not the current process. -/
def Sched.Doomed (s : Sched) (p : ℕ) : Prop := s.Condemned p ∧ s.current ≠ p

variable {s s' : Sched} {l : List ℕ} {p q fuel : ℕ}

theorem RingShape.current_mem (h : RingShape s l) : s.current ∈ s.blocks :=
  h.blocks.mem_iff.mpr List.mem_cons_self

theorem RingShape.next_mem (h : RingShape s l) (hq : q ∈ s.blocks) : s.links q ∈ s.blocks :=
  h.blocks.mem_iff.mpr (h.ring.next_mem (h.blocks.mem_iff.mp hq))

theorem RingShape.blocks_nodup (h : RingShape s l) : s.blocks.Nodup :=
  h.blocks.nodup_iff.mpr h.ring.nodup

theorem Sched.PidsDistinct.ownPid (hd : s.PidsDistinct) (h : RingShape s l) : s.OwnPid :=
  fun q hq e => hd q hq _ h.current_mem e

/-! ## Handling signals -/

/-- What an operation that may remove the process `c` leaves as it was. -/
structure Removes (s s' : Sched) (c : ℕ) : Prop where
  shape : ∃ l, RingShape s' l
  blocks : s'.blocks = s.blocks.erase c
  pids : s'.pids = s.pids
  pending : ∀ q, q ≠ c → s'.pending q = s.pending q

theorem unlinkProcess_pending (s : Sched) (prev q : ℕ) :
    (unlinkProcess s prev).pending q = s.pending q := by
  unfold unlinkProcess Sched.pending Sched.modify Sched.loadPML4
  dsimp only
  rcases eq_or_ne q prev with rfl | hq
  · rw [Function.update_self]
  · rw [Function.update_of_ne hq]

theorem RingShape.unlink_removes (h : RingShape s l) {prev : ℕ} (hp : prev ∈ s.blocks)
    (h₀ : s.pids (s.links prev) ≠ 0) : Removes s (unlinkProcess s prev) (s.links prev) := by
  obtain ⟨l', hl', -⟩ := h.unlink hp h₀
  exact ⟨⟨l', hl'⟩, rfl, funext (Move.unlink hp h₀).same.pids,
    fun q _ => unlinkProcess_pending s prev q⟩

/-- **`process_scheduler_remove_process`** on the pid of a process in the ring unlinks that process,
unless the pid is 0. -/
theorem RingShape.removeProcess_own (h : RingShape s l) (hd : s.PidsDistinct) {c : ℕ}
    (hc : c ∈ s.blocks) {b : Bool} (e : removeProcess fuel s (s.pids c) = some (s', b)) :
    (b = true ∧ s.pids c ≠ 0 ∧ ∃ prev ∈ s.blocks, s.links prev = c ∧ s' = unlinkProcess s prev) ∨
      (b = false ∧ s.pids c = 0 ∧ s' = s) := by
  rcases h.removeProcess_spec e with ⟨e, h₀⟩ | ⟨prev, hp, e, hpid, h₀⟩
  · obtain ⟨rfl, rfl⟩ := Prod.mk.inj e
    refine Or.inr ⟨rfl, h₀.resolve_right fun hne => ?_, rfl⟩
    exact hne c (h.blocks.mem_iff.mp hc) rfl
  · obtain ⟨rfl, rfl⟩ := Prod.mk.inj e
    exact Or.inl ⟨rfl, h₀, prev, hp, hd _ (h.next_mem hp) c hc hpid, rfl⟩

theorem clearSignals_pending (hq : q ≠ p) : (clearSignals s p).pending q = s.pending q := by
  unfold clearSignals Sched.pending Sched.modify
  dsimp only
  rw [Function.update_of_ne hq]

theorem clearSignals_pids (s : Sched) (p : ℕ) : (clearSignals s p).pids = s.pids :=
  modify_pids s p fun _ => rfl

theorem clearSignals_links (s : Sched) (p : ℕ) : (clearSignals s p).links = s.links :=
  modify_links s p fun _ => rfl

/-- **What `handle_signals` does**: it unlinks a process with a signal pending that kills, unless it
has pid 0; otherwise the process stays. -/
theorem RingShape.handleSignals_cases (h : RingShape s l) (hd : s.PidsDistinct) {c : ℕ}
    (hc : c ∈ s.blocks) {b : Bool} (e : handleSignals fuel s c = some (s', b)) :
    (b = true ∧ (Kills (s.pending c) ∧ s.pids c ≠ 0) ∧
        ∃ prev ∈ s.blocks, s.links prev = c ∧ s' = unlinkProcess (clearSignals s c) prev) ∨
      (b = false ∧ ¬ (Kills (s.pending c) ∧ s.pids c ≠ 0) ∧ s' = clearSignals s c) := by
  have h' := h.clear c
  have hpids := clearSignals_pids s c
  have hd' : (clearSignals s c).PidsDistinct := fun a ha b hb e => hd a ha b hb (by rwa [hpids] at e)
  -- one signal
  have hkill : ∀ {sig : UInt32} {s' : Sched} {b : Bool},
      killOn fuel (clearSignals s c) c (s.pending c) sig = some (s', b) →
      (b = true ∧ (s.pending c &&& sig ≠ 0 ∧ s.pids c ≠ 0) ∧
          ∃ prev ∈ s.blocks, s.links prev = c ∧ s' = unlinkProcess (clearSignals s c) prev) ∨
        (b = false ∧ ¬ (s.pending c &&& sig ≠ 0 ∧ s.pids c ≠ 0) ∧ s' = clearSignals s c) := by
    intro sig s' b e
    unfold killOn at e
    split_ifs at e with hs
    · rcases h'.removeProcess_own hd' hc e with ⟨hb, h₀, hr⟩ | ⟨hb, h₀, he⟩
      · rw [clearSignals_links] at hr
        exact Or.inl ⟨hb, ⟨hs, by rwa [hpids] at h₀⟩, hr⟩
      · exact Or.inr ⟨hb, fun hne => hne.2 (by rwa [hpids] at h₀), he⟩
    · obtain ⟨rfl, rfl⟩ := Prod.mk.inj (Option.some.inj e)
      exact Or.inr ⟨rfl, fun hne => hs hne.1, rfl⟩
  obtain ⟨⟨s₁, k⟩, e₁, e⟩ := Option.bind_eq_some_iff.mp e
  rcases hkill e₁ with ⟨rfl, hs, hr⟩ | ⟨rfl, hs, rfl⟩
  · obtain ⟨rfl, rfl⟩ := Prod.mk.inj (Option.some.inj e)
    exact Or.inl ⟨rfl, ⟨Or.inl hs.1, hs.2⟩, hr⟩
  · rcases hkill e with ⟨rfl, hs', hr⟩ | ⟨rfl, hs', rfl⟩
    · exact Or.inl ⟨rfl, ⟨Or.inr hs'.1, hs'.2⟩, hr⟩
    · exact Or.inr ⟨rfl, fun hk => hk.1.elim (fun h₁ => hs ⟨h₁, hk.2⟩) fun h₁ => hs' ⟨h₁, hk.2⟩, rfl⟩

theorem RingShape.handled_removes (h : RingShape s l) {prev : ℕ} (hp : prev ∈ s.blocks)
    (h₀ : s.pids (s.links prev) ≠ 0) :
    Removes s (unlinkProcess (clearSignals s (s.links prev)) prev) (s.links prev) := by
  have hpids := clearSignals_pids s (s.links prev)
  have hlinks := clearSignals_links s (s.links prev)
  have hr := (h.clear (s.links prev)).unlink_removes hp (by rwa [hlinks, hpids])
  rw [hlinks] at hr
  exact ⟨hr.shape, hr.blocks, hr.pids.trans hpids,
    fun q hq => (hr.pending q hq).trans (clearSignals_pending hq)⟩

theorem Removes.condemned {c : ℕ} (hr : Removes s s' c) (h : RingShape s l) (hp : s.Condemned p) :
    s'.Condemned p ∧ (p = c → p ∉ s'.blocks) := by
  have hmem : p ∈ s'.blocks ↔ p ≠ c ∧ p ∈ s.blocks := by
    rw [hr.blocks, h.blocks_nodup.mem_erase_iff]
  refine ⟨fun hm => ?_, fun e hm => (hmem.mp hm).1 e⟩
  obtain ⟨hne, hm⟩ := hmem.mp hm
  rw [hr.pending p hne, hr.pids]
  exact hp hm

theorem Removes.pidsDistinct {c : ℕ} (hr : Removes s s' c) (hd : s.PidsDistinct) :
    s'.PidsDistinct := by
  intro a ha b hb e
  rw [hr.blocks] at ha hb
  rw [hr.pids] at e
  exact hd a (List.mem_of_mem_erase ha) b (List.mem_of_mem_erase hb) e

/-! ## The scheduling loop -/

/-- The processes the loop of `process_scheduler_next_process` selects, in order. -/
def nextSelected (fuel : ℕ) : ℕ → Sched → List ℕ
  | 0, _ => []
  | n + 1, s =>
    let s := { s with current := s.links s.current }
    s.current ::
      match handleSignals fuel s s.current with
      | some (s, true) => nextSelected fuel n s
      | _ => []

/-- **The loop removes the condemned processes it selects**, and does not stop at one. -/
theorem RingShape.nextLoop_doomed {n : ℕ} (h : RingShape s l) (hd : s.PidsDistinct)
    (hp : s.Condemned p) (e : nextLoop fuel n s = some s') :
    s'.Doomed p ∧ (∀ q ∈ s'.blocks, q ∈ s.blocks) ∧ (p ∈ nextSelected fuel n s → p ∉ s'.blocks) := by
  induction n generalizing s l with
  | zero => exact absurd e (by simp [nextLoop])
  | succ n ih =>
    obtain ⟨l₁, h₁⟩ := h.advance
    rw [nextLoop] at e
    rw [nextSelected]
    dsimp only at e ⊢
    generalize hs₁ : ({ s with current := s.links s.current } : Sched) = s₁ at h₁ e ⊢
    have hd₁ : s₁.PidsDistinct := hs₁ ▸ hd
    have hp₁ : s₁.Condemned p := hs₁ ▸ hp
    have hb₁ : s₁.blocks = s.blocks := hs₁ ▸ rfl
    rw [← show s₁.current = s.links s.current from hs₁ ▸ rfl] at e ⊢
    obtain ⟨⟨s₂, b⟩, e₂, e⟩ := Option.bind_eq_some_iff.mp e
    rw [e₂]
    rcases h₁.handleSignals_cases hd₁ h₁.current_mem e₂ with
      ⟨rfl, hk, prev, hprev, hl, rfl⟩ | ⟨rfl, hk, rfl⟩
    · -- the selected process is gone, and the loop goes on
      have hr := h₁.handled_removes hprev (hl ▸ hk.2)
      rw [hl] at hr
      obtain ⟨l₂, h₂⟩ := hr.shape
      obtain ⟨hp₂, hgone⟩ := hr.condemned h₁ hp₁
      obtain ⟨h₃, h₄, h₅⟩ := ih h₂ (hr.pidsDistinct hd₁) hp₂ e
      refine ⟨h₃, fun q hq => ?_, fun hsel hm => ?_⟩
      · rw [← hb₁]
        exact List.mem_of_mem_erase (hr.blocks ▸ h₄ q hq)
      · rcases List.mem_cons.mp hsel with hsel | hsel
        · exact hgone hsel (h₄ p hm)
        · exact h₅ hsel hm
    · -- the selected process stays, so no signal that kills was pending
      obtain rfl := Option.some.inj e
      have hne : s₁.current ≠ p := by
        rintro rfl
        exact hk (hp₁ h₁.current_mem)
      refine ⟨⟨fun hm => ?_, hne⟩, fun q hq => hb₁ ▸ hq, fun hsel => ?_⟩
      · rw [clearSignals_pending hne.symm, clearSignals_pids]
        exact hp₁ hm
      · exact absurd (List.mem_singleton.mp hsel) hne.symm

theorem saveRegs_pending (s : Sched) (regs : CpuState) : (saveRegs s regs).pending = s.pending := by
  funext p
  unfold saveRegs Sched.pending Sched.loadPML4 Sched.modify
  dsimp only
  rcases eq_or_ne p s.current with rfl | hc
  · rw [Function.update_self]
  · rw [Function.update_of_ne hc]

theorem Sched.PidsDistinct.saveRegs (hd : s.PidsDistinct) (regs : CpuState) :
    (saveRegs s regs).PidsDistinct := by
  intro a ha b hb e
  rw [saveRegs_pids] at e
  exact hd a ha b hb e

/-- **`process_scheduler_next_process`** does not resume a condemned process. -/
theorem RingShape.nextProcess_doomed (h : RingShape s l) (hd : s.PidsDistinct) (hp : s.Condemned p)
    {regs out : CpuState} (e : nextProcess fuel s regs = some (s', out)) :
    s'.Doomed p ∧ (p ∈ nextSelected fuel fuel (saveRegs s regs) → p ∉ s'.blocks) := by
  obtain ⟨s₁, e₁, e⟩ := Option.map_eq_some_iff.mp e
  obtain ⟨rfl, -⟩ := Prod.mk.inj e
  have hp' : (saveRegs s regs).Condemned p := fun hm => by
    rw [saveRegs_pending, saveRegs_pids]
    exact hp hm
  obtain ⟨h₁, -, h₂⟩ := (h.save regs).nextLoop_doomed (hd.saveRegs regs) hp' e₁
  exact ⟨h₁, h₂⟩

/-! ## The other operations -/

theorem Kills.or {a : UInt32} (h : Kills a) (b : UInt32) : Kills (a ||| b) := by
  have hor : ∀ sig : UInt32, a &&& sig ≠ 0 → (a ||| b) &&& sig ≠ 0 := by
    intro sig hne h₀
    have hdist : (a ||| b) &&& sig = a &&& sig ||| b &&& sig :=
      UInt32.toBitVec_inj.mp BitVec.and_or_distrib_right
    rw [hdist, UInt32.or_eq_zero_iff] at h₀
    exact hne h₀.1
  exact h.imp (hor _) (hor _)

/-- `process->pending_signals |= signals;` -/
abbrev addSignals (s : Sched) (q : ℕ) (mask : UInt32) : Sched :=
  s.modify q fun r => { r with pendingSignals := r.pendingSignals ||| mask }

theorem addSignals_pids (s : Sched) (q : ℕ) (mask : UInt32) : (addSignals s q mask).pids = s.pids :=
  modify_pids s q fun _ => rfl

theorem addSignals_pending (s : Sched) (p q : ℕ) (mask : UInt32) :
    (addSignals s q mask).pending p = if p = q then s.pending p ||| mask else s.pending p := by
  unfold addSignals Sched.pending Sched.modify
  dsimp only
  rcases eq_or_ne p q with rfl | hq
  · rw [Function.update_self, if_pos rfl]
  · rw [Function.update_of_ne hq, if_neg hq]

theorem sendSignals_doomed {pid mask : UInt32} (e : sendSignals fuel s pid mask = some s')
    (hp : s.Doomed p) : s'.Doomed p := by
  obtain ⟨o, -, rfl⟩ := Option.map_eq_some_iff.mp e
  cases o with
  | none => exact hp
  | some q =>
    refine ⟨fun hm => ?_, hp.2⟩
    obtain ⟨hk, h₀⟩ := hp.1 hm
    show Kills ((addSignals s q mask).pending p) ∧ (addSignals s q mask).pids p ≠ 0
    rw [addSignals_pids, addSignals_pending]
    refine ⟨?_, h₀⟩
    split_ifs
    · exact hk.or mask
    · exact hk

theorem runAdd_doomed {q pml4 : ℕ} {entry : UInt64} (hp : s.Doomed p) (hq : q ∉ s.blocks)
    (hkeep : p = q → p ∈ s.blocks) : (runAdd s q entry pml4).Doomed p := by
  have hne : p ≠ q := fun e => hq (e ▸ hkeep e)
  refine ⟨fun hm => ?_, hp.2⟩
  have hm : p ∈ s.blocks := (List.mem_cons.mp hm).resolve_left hne
  obtain ⟨hk, h₀⟩ := hp.1 hm
  have hpid := (addProcess_procs (s := s.loadPML4 s.kernelPML4) (p := q) entry pml4 false hne).1
  have hpend : (runAdd s q entry pml4).pending p = s.pending p := by
    have hc : p ≠ s.current := hp.2.symm
    simp [runAdd, addProcess, Sched.pending, Sched.modify, Sched.loadPML4, hc, hne]
  rw [hpend]
  exact ⟨hk, fun e => h₀ (hpid.symm.trans e)⟩

/-! ## Runs -/

/-- Runs of the machine in which signals of any kind are sent at any time, and in which no new process
is put into a block of `kept`. -/
inductive SignalRun (kept : Set ℕ) (m₀ : Machine) : List Return → Machine → Prop
  | nil : SignalRun kept m₀ [] m₀
  | silent {rs : List Return} {m m' : Machine} (h : SignalRun kept m₀ rs m) (hs : Silent m m')
      (hk : ∀ q ∈ kept, q ∈ m'.sched.blocks → q ∈ m.sched.blocks) : SignalRun kept m₀ rs m'
  | handle {rs : List Return} {r : Return} (h : SignalRun kept m₀ rs r.pre) (hr : Handles r) :
      SignalRun kept m₀ (r :: rs) r.post
  | send {rs : List Return} {m : Machine} {fuel : ℕ} {pid mask : UInt32} {s : Sched}
      (h : SignalRun kept m₀ rs m) (e : sendSignals fuel m.sched pid mask = some s) :
      SignalRun kept m₀ rs { m with sched := s }

/-- A timer interrupt or an exit syscall does not resume `p`, and the timer removes it if it is
selected. -/
def Return.Spares (r : Return) (p : ℕ) : Prop :=
  (r.event = .timer ∨ r.IsExit → r.post.sched.current ≠ p) ∧
    ∀ fuel, r.event = .timer → nextProcess fuel r.pre.sched r.frame = some (r.post.sched, r.out) →
      p ∈ nextSelected fuel fuel (saveRegs r.pre.sched r.frame) → p ∉ r.post.sched.blocks

/-- At an exit syscall, `p` is not the next process of the ring. -/
def Return.ExitNot (r : Return) (p : ℕ) : Prop :=
  r.IsExit → r.pre.sched.pids r.pre.sched.current ≠ 0 →
    r.pre.sched.links r.pre.sched.current ≠ p

variable {m m₀ : Machine} {rs : List Return} {kept : Set ℕ}

theorem MachineOk.send (h : MachineOk m) {pid mask : UInt32}
    (e : sendSignals fuel m.sched pid mask = some s) : MachineOk { m with sched := s } := by
  have hm := sendSignals_moves e
  obtain ⟨l, hl⟩ := h.shape
  exact ⟨hm.shape hl, fun q => (hm.same.regs q).trans (h.frames q)⟩

theorem SignalRun.ok (h : SignalRun kept m₀ rs m) (h₀ : MachineOk m₀) : MachineOk m := by
  induction h with
  | nil => exact h₀
  | silent _ hs _ ih => exact hs.ok ih
  | handle _ hr ih => exact hr.ok ih
  | send _ e ih => exact ih.send e

theorem Silent.doomed {m' : Machine} (hs : Silent m m') (hp : m.sched.Doomed p)
    (hk : p ∈ m'.sched.blocks → p ∈ m.sched.blocks) : m'.sched.Doomed p := by
  cases hs with
  | runAdd _ _ hq => exact runAdd_doomed hp hq fun e => hk (e ▸ List.mem_cons_self)
  | load _ _ _ hq => exact runAdd_doomed hp hq fun e => hk (e ▸ List.mem_cons_self)

theorem RingShape.schedExit_doomed (h : RingShape s l) (hd : s.PidsDistinct) (hp : s.Doomed p)
    {t : ℕ} {out : CpuState} (e : schedExit fuel (s.loadPML4 t) = some (s', out))
    (hc : s'.current ≠ p) : s'.Doomed p := by
  obtain ⟨⟨s₁, b⟩, e₁, e⟩ := Option.map_eq_some_iff.mp e
  obtain ⟨rfl, -⟩ := Prod.mk.inj e
  refine ⟨?_, hc⟩
  rcases (h.loadPML4 t).removeProcess_own hd h.current_mem e₁ with
    ⟨-, h₀, prev, hprev, hl, rfl⟩ | ⟨-, -, rfl⟩
  · have hr := (h.loadPML4 t).unlink_removes hprev (hl ▸ h₀)
    exact (hr.condemned (h.loadPML4 t) hp.1).1
  · exact hp.1

/-- **One return and a process that is doomed.** -/
theorem Handles.spares_iff {r : Return} (hr : Handles r) (h : MachineOk r.pre)
    (hd : r.pre.sched.PidsDistinct) (hp : r.pre.sched.Doomed p) :
    (r.Spares p ↔ r.ExitNot p) ∧ (r.ExitNot p → r.post.sched.Doomed p) := by
  obtain ⟨l, hl⟩ := h.shape
  cases hr with
  | @timer _ m f out s₁ e =>
    rw [irqHandlerC_timer] at e
    have hdoom := (hl.nextProcess_doomed hd hp.1 e).1
    refine ⟨iff_of_true ⟨fun _ => hdoom.2, fun fuel' _ e' => ?_⟩ fun he => absurd he.1 nofun,
      fun _ => hdoom⟩
    exact (hl.nextProcess_doomed hd hp.1 e').2
  | @syscall _ m f out s₁ _ _ _ e =>
    obtain ⟨-, ⟨h₀, -, -, -, hnext⟩ | ⟨h₀, hc, -⟩⟩ := hl.syscallHandlerC_spec e
    · rw [syscallHandlerC, if_pos h₀] at e
      obtain ⟨⟨s₂, out'⟩, e₁, e⟩ := Option.map_eq_some_iff.mp e
      obtain ⟨rfl, -⟩ := Prod.mk.inj e
      have hiff : s₂.current ≠ p ↔
          Return.ExitNot ⟨.syscall, m, f, m.toSched s₂, out⟩ p := by
        rcases hnext (hd.ownPid hl) with ⟨hpid, -, hc⟩ | ⟨hpid, hc, -⟩
        · rw [hc]
          exact iff_of_true hp.2 fun _ hne => absurd hpid hne
        · rw [hc]
          exact ⟨fun hne _ _ => hne, fun hx => hx ⟨rfl, h₀⟩ hpid⟩
      refine ⟨⟨fun hs => hiff.mp (hs.1 (.inr ⟨rfl, h₀⟩)), fun hx => ⟨fun _ => hiff.mpr hx, nofun⟩⟩,
        fun hx => ?_⟩
      exact hl.schedExit_doomed hd hp e₁ (hiff.mpr hx)
    · have hexit : ¬ Return.IsExit ⟨.syscall, m, f, m.toSched s₁, out⟩ := fun he => h₀ he.2
      refine ⟨iff_of_true ⟨fun hor => ?_, nofun⟩ fun he => absurd he hexit, fun _ => ?_⟩
      · exact absurd (hor.resolve_left nofun) hexit
      · rw [syscallHandlerC, if_neg h₀] at e
        split_ifs at e
        · obtain ⟨s₂, e₁, e⟩ := Option.map_eq_some_iff.mp e
          obtain ⟨rfl, -⟩ := Prod.mk.inj e
          exact sendSignals_doomed e₁ hp
        · obtain ⟨rfl, -⟩ := Prod.mk.inj (Option.some.inj e)
          exact hp
  | @runFailed m f success _ hid =>
    have hexit : ¬ Return.IsExit ⟨.syscall, m, f,
        m.toSched (EitanOS.runReturn (m.sched.loadPML4 m.sched.kernelPML4)), f.setRax success⟩ := by
      intro he
      have h₀ : f.rax = 0 := he.2
      rw [hid] at h₀
      exact absurd h₀ (by decide)
    refine ⟨iff_of_true ⟨fun hor => ?_, nofun⟩ fun he => absurd he hexit, fun _ => hp⟩
    exact absurd (hor.resolve_left nofun) hexit
  | @runReturn m f hrun =>
    refine ⟨iff_of_true ⟨fun hor => ?_, nofun⟩ fun he => absurd he.1 nofun, fun _ => hp⟩
    exact absurd (hor.resolve_left nofun) fun he => absurd he.1 nofun

theorem SignalRun.spares_iff (h : SignalRun {p} m₀ rs m) (h₀ : MachineOk m₀)
    (hp : m₀.sched.Doomed p) (hd : ∀ r ∈ rs, r.pre.sched.PidsDistinct) :
    ((∀ r ∈ rs, r.Spares p) ↔ ∀ r ∈ rs, r.ExitNot p) ∧
      ((∀ r ∈ rs, r.ExitNot p) → m.sched.Doomed p) := by
  induction h with
  | nil => exact ⟨iff_of_true (List.forall_mem_nil _) (List.forall_mem_nil _), fun _ => hp⟩
  | silent _ hs hk ih =>
    obtain ⟨h₁, h₂⟩ := ih hd
    exact ⟨h₁, fun hx => hs.doomed (h₂ hx) (hk p rfl)⟩
  | @handle rs r hrun hr ih =>
    obtain ⟨h₁, h₂⟩ := ih fun r hr => hd r (List.mem_cons_of_mem _ hr)
    have hstep := fun hx => hr.spares_iff (hrun.ok h₀) (hd r List.mem_cons_self) (h₂ hx)
    rw [List.forall_mem_cons, List.forall_mem_cons]
    refine ⟨⟨fun ⟨hs, ht⟩ => ?_, fun ⟨hs, ht⟩ => ?_⟩, fun ⟨hs, ht⟩ => (hstep ht).2 hs⟩
    · have hx := h₁.mp ht
      exact ⟨(hstep hx).1.mp hs, hx⟩
    · exact ⟨(hstep ht).1.mpr hs, h₁.mpr ht⟩
  | send _ e ih =>
    obtain ⟨h₁, h₂⟩ := ih hd
    exact ⟨h₁, fun hx => sendSignals_doomed e (h₂ hx)⟩

theorem sendSignals_target {pid mask : UInt32} (hfind : findProcess fuel s pid = some (some p))
    (e : sendSignals fuel s pid mask = some s') (hk : Kills mask) (h₀ : s.pids p ≠ 0)
    (hc : s.current ≠ p) : s'.Doomed p := by
  rw [sendSignals, hfind] at e
  obtain rfl := Option.some.inj e
  refine ⟨fun _ => ?_, hc⟩
  show Kills ((addSignals s p mask).pending p) ∧ (addSignals s p mask).pids p ≠ 0
  rw [addSignals_pids, addSignals_pending, if_pos rfl, UInt32.or_comm]
  exact ⟨hk.or _, h₀⟩

/-- **A killed process**, in every run of timer interrupts, syscalls and signals from any state of any
run, as long as no two processes have the same pid: once `SIG_KILL` or `SIG_ABRT` is sent to a process
with a pid other than 0 that is not running, no timer interrupt and no exit resumes it and the timer
removes it when it selects it, exactly when it is never the next process of the ring at an exit
syscall. -/
theorem killed_never_runs {procs : ℕ → Process} {k kernelPML4 fuel p : ℕ} {rs₁ rs₂ : List Return}
    {m₁ m₂ : Machine} {pid mask : UInt32} {s : Sched}
    (h₁ : SignalRun ∅ (machineInit procs k kernelPML4) rs₁ m₁)
    (hfind : findProcess fuel m₁.sched pid = some (some p)) (hpid : m₁.sched.pids p ≠ 0)
    (hrun : m₁.sched.current ≠ p) (hmask : Kills mask)
    (e : sendSignals fuel m₁.sched pid mask = some s)
    (h₂ : SignalRun {p} { m₁ with sched := s } rs₂ m₂)
    (hd : ∀ r ∈ rs₂, r.pre.sched.PidsDistinct) :
    (∀ r ∈ rs₂, r.Spares p) ↔ ∀ r ∈ rs₂, r.ExitNot p :=
  (h₂.spares_iff ((h₁.ok (machineOk_init procs k kernelPML4)).send e)
    (sendSignals_target hfind e hmask hpid hrun) hd).1

/-- The kernel process has loaded two user processes, in blocks 32 and 48, and the timer has switched
to the second one. -/
def twoUsers : Machine :=
  let m := userMachine.added (runAdd userMachine.sched 48 0x400000 0x3000) 48 0x400000
  (m.switchOut CpuState.zero).toSched
    (((nextProcess 3 m.sched CpuState.zero).map Prod.fst).getD m.sched)

theorem twoUsers_run : ∃ rs,
    SignalRun ∅ (machineInit (fun _ => ⟨0, CpuState.zero, 0, 0, 0⟩) 16 0x1000) rs twoUsers := by
  have h₀ := SignalRun.silent
    (@SignalRun.nil ∅ (machineInit (fun _ => ⟨0, CpuState.zero, 0, 0, 0⟩) 16 0x1000))
    (@Silent.load _ 32 0x2000 0x400000 (by decide) rfl (by decide) (by decide)) nofun
  have h₁ := SignalRun.silent h₀
    (@Silent.load _ 48 0x3000 0x400000 (by decide) rfl (by decide) (by decide)) nofun
  exact ⟨_, .handle (r := ⟨.timer, _, CpuState.zero, _, _⟩) h₁ (@Handles.timer 3 _ _ _ _ rfl)⟩

/-- `SIG_KILL` sent to the first user process while the second one runs. -/
def firstKilled : Machine :=
  { twoUsers with sched := (sendSignals 3 twoUsers.sched 1 sigKill).getD twoUsers.sched }

/-- The second user process then exits: this resumes the first one, which was killed. -/
theorem exit_resumes_killed : (∃ rs, SignalRun ∅
      (machineInit (fun _ => ⟨0, CpuState.zero, 0, 0, 0⟩) 16 0x1000) rs twoUsers) ∧
    findProcess 3 twoUsers.sched 1 = some (some 32) ∧ twoUsers.sched.current = 48 ∧
    sendSignals 3 twoUsers.sched 1 sigKill = some firstKilled.sched ∧
    ∃ rs m, SignalRun {32} firstKilled rs m ∧ (∀ r ∈ rs, r.pre.sched.PidsDistinct) ∧
      ∃ r ∈ rs, r.IsExit ∧ r.post.sched.current = 32 ∧ ¬ r.Spares 32 := by
  have h := SignalRun.handle (r := ⟨.syscall, firstKilled, CpuState.zero, _, _⟩)
    (@SignalRun.nil {32} firstKilled) (@Handles.syscall 3 _ _ _ _ 0 (by decide) (by decide) rfl)
  refine ⟨twoUsers_run, rfl, rfl, rfl, _, _, h, ?_, _, List.mem_cons_self, ⟨rfl, rfl⟩, rfl,
    fun hs => hs.1 (.inr ⟨rfl, rfl⟩) rfl⟩
  intro r hr
  obtain rfl := List.mem_singleton.mp hr
  unfold Sched.PidsDistinct
  decide

theorem killed_never_runs_timer : firstKilled.sched.current = 48 ∧
    ∃ rs m, SignalRun {32} firstKilled rs m ∧ rs.length = 1 ∧ m.sched.blocks = [48, 16] ∧
      ∀ r ∈ rs, r.Spares 32 := by
  obtain ⟨rs₁, h₁⟩ := twoUsers_run
  have h := SignalRun.handle (r := ⟨.timer, firstKilled, CpuState.zero, _, _⟩)
    (@SignalRun.nil {32} firstKilled) (@Handles.timer 3 _ _ _ _ rfl)
  have hfind : findProcess 3 twoUsers.sched 1 = some (some 32) := rfl
  have e : sendSignals 3 twoUsers.sched 1 sigKill = some firstKilled.sched := rfl
  refine ⟨rfl, _, _, h, rfl, rfl, (killed_never_runs h₁ hfind (by decide) (by decide) (by decide) e h
    ?_).mpr ?_⟩
  · intro r hr
    obtain rfl := List.mem_singleton.mp hr
    unfold Sched.PidsDistinct
    decide
  · intro r hr he
    obtain rfl := List.mem_singleton.mp hr
    exact absurd he (not_isExit_of_timer rfl)

end EitanOS
