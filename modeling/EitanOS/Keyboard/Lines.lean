import EitanOS.Keyboard.Model

/-!
# From the keys to the command line

* **`keys_delivered`**: a process gets keys that were pressed, each once and in order. The others are in the
  buffer, on their way to it, or were overwritten there.
* **`kernel_drains`**: whoever else takes steps, the kernel stores everything that has arrived.
* **`typed_line_read`**: when no key was overwritten, `read_command_line` returns the line that was typed.
-/

namespace Keyboard

open Mailbox Prog Objects

variable {s t : State} {evs : List Event} {acts : List Action} {bytes : List UInt8} {v : UInt16}
  {events : List KeyEvent} {beyond : ℕ → UInt8} {keys : List UInt16} {a : UInt8} {m m' : Mem}

/-! ## Keys -/

/-- The keys that were overwritten in `io_keyboard_buffer`. -/
def overwritten (evs : List Event) : List UInt16 := lost none (ops evs)

theorem or_special_ne : ∀ b : UInt8, 0xE000 ||| b.toUInt16 ≠ 0 ∧ (b ≠ 0 → b.toUInt16 ≠ 0) :=
  forall_uint8 (by decide +kernel)

theorem Key.scancode_ne (k : Key) : k.scancode ≠ 0 := by
  obtain ⟨special, code, -, hplain⟩ := k
  obtain ⟨h₁, h₂⟩ := or_special_ne code
  cases special with
  | true => exact h₁
  | false => exact h₂ (hplain rfl).1

theorem ne_of_mem_presses (h : v ∈ presses events) : v ≠ 0 := by
  obtain ⟨e, -, he⟩ := List.mem_filterMap.1 h
  cases e with
  | press k =>
    obtain rfl := Option.some.inj he
    exact k.scancode_ne
  | release k => cases he

theorem decode_flatMap (events : List KeyEvent) :
    decode false (events.flatMap KeyEvent.bytes) = presses events := by
  have h := decode_events events []
  rwa [List.append_nil, decode, List.append_nil] at h

theorem Follows.codes_prefix (h : Follows start bytes evs t) (hb : bytes <+: events.flatMap KeyEvent.bytes) :
    Keyboard.codes evs <+: presses events := by
  rw [← decode_flatMap]
  exact .trans ⟨_, h.codes_start.symm⟩ (decode_isPrefix hb)

/-- **Keys are delivered once and in order.** While the bytes of some key events arrive, in any interleaving
of the kernel and of the processes that read: the kernel stores a beginning of the keys that were pressed, and
the screen gets a beginning of the orders for them. What the processes get is a part of the keys in their
order, and each key that was stored was delivered, or overwritten, or is still in the buffer. -/
theorem keys_delivered (events : List KeyEvent) (acts : List Action)
    (h : arrived acts <+: events.flatMap KeyEvent.bytes) : ∃ s evs, run start acts = some (s, evs) ∧
      codes evs <+: presses events ∧ orders evs <+: (presses events).filterMap screenOrder ∧
      ((delivered evs).map Prod.snd).Sublist (presses events) ∧
      (codes evs).Perm ((delivered evs).map Prod.snd ++ (overwritten evs ++ (keyOf s.buffer).toList)) := by
  obtain ⟨s, evs, hrun, hs⟩ := run_start acts
  have hcodes := hs.codes_prefix h
  have horders : orders evs <+: (codes evs).filterMap screenOrder := ⟨_, hs.orders.symm⟩
  -- no key has the scancode 0, so that every key that is stored fills the buffer
  have hputs : puts (ops evs) = codes evs := by
    rw [puts_ops, List.filter_eq_self]
    intro v hv
    simpa using ne_of_mem_presses (hcodes.subset hv)
  have hperm := perm (keyOf start.buffer) (ops evs)
  rw [← hs.delivered, ← hs.buffer, hputs] at hperm
  exact ⟨s, evs, hrun, hcodes, horders.trans (hcodes.filterMap _), hs.delivered_sublist.trans hcodes.sublist, hperm⟩

/-- The keys l, s and Enter. -/
def lsEvents : List KeyEvent :=
  [.press ⟨false, 0x26, by decide, by decide⟩, .release ⟨false, 0x26, by decide, by decide⟩,
    .press ⟨false, 0x1F, by decide, by decide⟩, .press ⟨false, 0x1C, by decide, by decide⟩]

/-- Each byte is read and stored before the next comes, and process 1 calls twice for each. -/
def lsActions : List Action :=
  (lsEvents.flatMap KeyEvent.bytes).flatMap fun b =>
    [.arrive b, .kernel, .kernel, .read 1, .kernel, .kernel, .read 1]

theorem keys_delivered_ls : ∃ s evs, run start lsActions = some (s, evs) ∧
    ((delivered evs).map Prod.snd).Sublist [0x26, 0x1F, 0x1C] := by
  obtain ⟨s, evs, hrun, -, -, hsub, -⟩ := keys_delivered lsEvents lsActions ⟨[], rfl⟩
  exact ⟨s, evs, hrun, hsub⟩

/-! ## Progress -/

/-- The steps that the kernel needs until it waits for a byte. -/
def State.rest (s : State) : ℕ :=
  match s.pc with
  | .pollFirst | .pollSecond => 4 * s.waiting.length
  | .readFirst | .readSecond => 4 * s.waiting.length - 1
  | .store _ => 4 * s.waiting.length + 2
  | .dispatch _ => 4 * s.waiting.length + 1

/-- A step of the kernel. -/
def Action.isKernel : Action → Bool
  | kernel => true
  | _ => false

theorem rest_readData {next : UInt8 → Pc} (hw : s.waiting ≠ [])
    (hnext : ∀ b w, State.rest { s with waiting := w, data := b, pc := next b } ≤ 4 * w.length + 2) :
    (s.readData next).1.rest ≤ 4 * s.waiting.length - 2 := by
  obtain ⟨b, w, hs⟩ := List.exists_cons_of_ne_nil hw
  have hread : (s.readData next).1 = { s with waiting := w, data := b, pc := next b } := by
    unfold State.readData
    rw [hs]
  rw [hread, hs, List.length_cons]
  exact (hnext b w).trans (by omega)

theorem rest_afterFirst (b : UInt8) (w : List UInt8) :
    State.rest { s with waiting := w, data := b, pc := afterFirst b } ≤ 4 * w.length + 2 := by
  unfold afterFirst State.rest
  split_ifs <;> simp

theorem rest_afterSecond (b : UInt8) (w : List UInt8) :
    State.rest { s with waiting := w, data := b, pc := afterSecond b } ≤ 4 * w.length + 2 := by
  unfold afterSecond State.rest
  split_ifs <;> simp

theorem rest_kernelStep (h : s.Ok) (hstep : kernelStep s = some (t, evs)) : t.rest ≤ s.rest - 1 := by
  unfold State.Ok at h
  unfold kernelStep at hstep
  cases hpc : s.pc with
  | pollFirst | pollSecond =>
    rw [hpc, Option.some.injEq, Prod.mk.injEq] at hstep
    obtain ⟨rfl, -⟩ := hstep
    split_ifs with hw
    · simp [State.rest, hpc, hw]
    · simp [State.rest, hpc]
  | readFirst =>
    rw [hpc] at h hstep
    rw [Option.some.injEq] at hstep
    have hle := rest_readData h fun b w => rest_afterFirst (s := s) b w
    rw [hstep] at hle
    simpa [State.rest, hpc, Nat.sub_sub] using hle
  | readSecond =>
    rw [hpc] at h hstep
    rw [Option.some.injEq] at hstep
    have hle := rest_readData h fun b w => rest_afterSecond (s := s) b w
    rw [hstep] at hle
    simpa [State.rest, hpc, Nat.sub_sub] using hle
  | store v =>
    rw [hpc, Option.some.injEq, Prod.mk.injEq] at hstep
    obtain ⟨rfl, -⟩ := hstep
    simp [State.rest, hpc]
  | dispatch v =>
    simp only [hpc] at h hstep
    obtain ⟨c, hc⟩ := ioIsCharacter_isSome h
    rw [hc] at hstep
    obtain ⟨rfl, -⟩ := Prod.mk.inj (Option.some.inj hstep)
    simp [State.rest, hpc]

theorem rest_run (h : s.Ok) (hrun : run s acts = some (t, evs)) (hnone : arrived acts = []) :
    t.rest ≤ s.rest - acts.countP Action.isKernel := by
  induction acts generalizing s evs with
  | nil =>
    obtain ⟨rfl, -⟩ := Prod.mk.inj (Option.some.inj hrun)
    exact le_rfl
  | cons a acts ih =>
    obtain ⟨u, evs', hstep, hu⟩ := step_follows h a
    obtain ⟨t', evs'', hrun', -⟩ := run_follows hu.ok acts
    have ht : t' = t := by
      rw [run, hstep] at hrun
      simp only [Option.bind_eq_bind, Option.bind_some, hrun'] at hrun
      exact (Prod.mk.inj (Option.some.inj hrun)).1
    rw [arrived_cons, List.append_eq_nil_iff] at hnone
    have hle := ih hu.ok (ht ▸ hrun') hnone.2
    cases a with
    | arrive b => cases hnone.1
    | kernel =>
      have hone := rest_kernelStep h hstep
      rw [List.countP_cons_of_pos rfl]
      omega
    | read pid =>
      obtain ⟨rfl, -⟩ := Prod.mk.inj (Option.some.inj hstep)
      rw [List.countP_cons_of_neg Bool.false_ne_true]
      exact hle

theorem run_append (s : State) (acts acts' : List Action) : run s (acts ++ acts') =
    (run s acts >>= fun x => (run x.1 acts').map fun y => (y.1, x.2 ++ y.2)) := by
  induction acts generalizing s with
  | nil => cases h : run s acts' <;> simp [run, h]
  | cons a acts ih =>
    rw [List.cons_append, run, run]
    cases hstep : step s a with
    | none => rfl
    | some x =>
      simp only [Option.bind_eq_bind, Option.bind_some, ih]
      cases hrun : run x.1 acts with
      | none => rfl
      | some y =>
        simp only [Option.bind_some, Option.pure_def]
        cases run y.1 acts' <;> simp

theorem rest_le (s : State) : s.rest ≤ 4 * s.waiting.length + 2 := by
  unfold State.rest
  split <;> omega

theorem rest_eq_zero (h : s.Ok) (h₀ : s.rest = 0) : s.waiting = [] ∧ s.pc.codes = [] := by
  unfold State.rest at h₀
  unfold State.Ok at h
  cases hpc : s.pc with
  | pollFirst | pollSecond =>
    simp only [hpc] at h₀
    exact ⟨List.length_eq_zero_iff.1 (by omega), rfl⟩
  | readFirst | readSecond =>
    simp only [hpc] at h₀ h
    have hpos := List.length_pos_iff.2 h
    exact absurd h₀ (by omega)
  | store v | dispatch v =>
    simp only [hpc] at h₀
    exact absurd h₀ (by omega)

/-- **The kernel stores everything.** When nothing more arrives and the kernel takes four steps for each byte
and two more, with any system calls between them, it has read all the bytes and has stored all their
scancodes. -/
theorem kernel_drains (acts acts' : List Action) (hnone : arrived acts' = [])
    (hn : 4 * (arrived acts).length + 2 ≤ acts'.countP Action.isKernel) :
    ∃ s evs, run start (acts ++ acts') = some (s, evs) ∧ s.waiting = [] ∧
      codes evs = decode false (arrived acts) := by
  obtain ⟨s, evs, hrun, hs⟩ := run_start acts
  obtain ⟨t, evs', hrun', ht⟩ := run_follows hs.ok acts'
  have hlen : s.waiting.length ≤ (arrived acts).length := by
    have hw : arrived acts = bytesRead evs ++ s.waiting := hs.waiting
    rw [hw, List.length_append]
    omega
  have hrest : t.rest = 0 := by
    have hle := rest_run hs.ok hrun' hnone
    have hmax := rest_le s
    omega
  obtain ⟨hw, hc⟩ := rest_eq_zero ht.ok hrest
  have hall := (hs.trans ht).codes_start
  rw [hnone, List.append_nil, hw, hc] at hall
  refine ⟨t, evs ++ evs', ?_, hw, ?_⟩
  · rw [run_append, hrun]
    show (run s acts').map _ = _
    rw [hrun']
    rfl
  · rw [hall]
    simp [decode]

theorem kernel_drains_arrow : ∃ s evs,
    run start ([.arrive 0xE0, .arrive 0x48] ++ List.replicate 10 .kernel) = some (s, evs) ∧ codes evs = [0xE048] := by
  obtain ⟨s, evs, hrun, -, hcodes⟩ := kernel_drains [.arrive 0xE0, .arrive 0x48] (List.replicate 10 .kernel) rfl
    (by decide)
  exact ⟨s, evs, hrun, hcodes⟩

/-! ## Lines -/

/-- What one call of `read_keyboard` after the other returns. -/
def keysRead (answers : List UInt16) : List UInt16 := answers.filter (· ≠ 0)

/-- The answers to one process. -/
def answersTo (pid : ℕ) (evs : List Event) : List UInt16 :=
  ((answers evs).filter (·.1 = pid)).map Prod.snd

theorem keysRead_answersTo {pid : ℕ} (h : ∀ x ∈ delivered evs, x.1 = pid) :
    keysRead (answersTo pid evs) = (delivered evs).map Prod.snd := by
  have hcomm : keysRead (answersTo pid evs) = ((delivered evs).filter (·.1 = pid)).map Prod.snd := by
    rw [keysRead, answersTo, List.filter_map, delivered, List.filter_filter, List.filter_filter]
    congr 2
    funext x
    simp [Bool.and_comm]
  rw [hcomm, List.filter_eq_self.2 (by simpa using h)]

theorem foldl_press {e : Shell.Editor} {cs : List UInt8} (hp : ∀ c ∈ cs, Shell.Printable c)
    (hl : e.text.length + cs.length < 128) (he : e.peak = e.text.length) :
    cs.foldl Shell.Editor.press e = ⟨e.text ++ cs, e.text.length + cs.length, e.full⟩ := by
  induction cs generalizing e with
  | nil => simp [← he]
  | cons c cs ih =>
    rw [List.forall_mem_cons] at hp
    have hc : c ≠ 8 := fun h => Shell.not_printable_eight (h ▸ hp.1)
    rw [List.length_cons] at hl
    have hpress : e.press c = ⟨e.text ++ [c], e.text.length + 1, e.full⟩ := by
      rw [Shell.Editor.press, if_neg hc, if_pos hp.1, if_neg (by omega), he, max_eq_right (by omega)]
    rw [List.foldl_cons, hpress, ih hp.2 (by simp; omega) (by simp)]
    simp
    omega

theorem buffered_typing {cs l : List UInt8} (hp : ∀ c ∈ cs, Shell.Printable c) (hl : cs.length < 128)
    (h : Shell.Buffered (Shell.Editor.typing cs) l) : l = cs ++ List.replicate (128 - cs.length) 0 := by
  have htext : Shell.Editor.typing cs = ⟨cs, cs.length, false⟩ := by
    rw [Shell.Editor.typing, foldl_press hp (by simpa using hl) rfl]
    simp
  rw [htext] at h
  obtain ⟨old, rfl, hlen, hold⟩ := h.split
  have hrep : old = List.replicate (128 - cs.length) 0 :=
    List.eq_replicate_iff.2 ⟨by simp at hlen; omega, by simpa using hold⟩
  simp [hrep]

theorem echoes_typing {e : Shell.Editor} {cs : List UInt8} (h₈ : 8 ∉ cs) : e.echoes cs = cs := by
  induction cs generalizing e with
  | nil => rfl
  | cons c cs ih =>
    rw [List.mem_cons, not_or] at h₈
    rw [Shell.Editor.echoes, ih h₈.2, Shell.Editor.echo, if_neg fun h => h₈.1 h.1.symm]
    rfl

theorem exec_readCommandLine_typed (beyond : ℕ → UInt8) (m : Mem) (hk : 0x1C ∉ keys)
    (hp : ∀ c ∈ Shell.typed beyond keys, Shell.Printable c) (hl : (Shell.typed beyond keys).length < 128) :
    exec (Shell.readCommandLine beyond (keys ++ [0x1C])) m =
      (some (.block m.size, Shell.typed beyond keys ++ [10]),
        m.push (Shell.typed beyond keys ++ List.replicate (128 - (Shell.typed beyond keys).length) 0)) := by
  obtain ⟨l, he, hl'⟩ := Shell.exec_readCommandLine_echoes beyond m hk
  rw [he, echoes_typing fun h => Shell.not_printable_eight (hp 8 h), buffered_typing hp hl hl']

/-! ### From the keys to the line -/

theorem scancodeToAscii_eq (beyond beyond' : ℕ → UInt8) (h : v < 128) :
    Shell.scancodeToAscii beyond v = Shell.scancodeToAscii beyond' v := by
  have hlt : v.toNat < 128 := UInt16.lt_iff_toNat_lt.1 h
  rw [Shell.scancodeToAscii, Shell.scancodeToAscii, if_pos hlt, if_pos hlt]

theorem typed_eq (beyond beyond' : ℕ → UInt8) (h : ∀ v ∈ keys, Decoded v) :
    Shell.typed beyond keys = Shell.typed beyond' keys := by
  have hfilter : keys.filter (Shell.isCharacter beyond) = keys.filter (Shell.isCharacter beyond') :=
    List.filter_congr fun v hv =>
      Option.some.inj ((isCharacter_eq (h v hv) beyond).symm.trans (isCharacter_eq (h v hv) beyond'))
  rw [Shell.typed, Shell.typed, hfilter]
  refine List.map_congr_left fun v hv => ?_
  obtain ⟨hmem, hchar⟩ := List.mem_filter.1 hv
  rcases h v hmem with hlt | hge
  · exact scancodeToAscii_eq beyond beyond' hlt
  · rw [Shell.isCharacter, if_pos hge] at hchar
    cases hchar

theorem Follows.delivered_all (h : Follows start bytes evs t) (hw : t.waiting = []) (hc : t.pc.codes = [])
    (hb : t.buffer = 0) (hlost : overwritten evs = []) (h₀ : 0 ∉ decode false bytes) :
    (Keyboard.delivered evs).map Prod.snd = decode false bytes := by
  have hcodes : Keyboard.codes evs = decode false bytes := by
    rw [h.codes_start, hw, hc]
    simp [decode]
  have hall : (taken (keyOf start.buffer) (ops evs)).map Prod.snd ++
      (after (keyOf start.buffer) (ops evs)).toList = puts (ops evs) := taken_eq hlost
  rw [← h.delivered, ← h.buffer, puts_ops, hcodes, hb] at hall
  have hfilter : (decode false bytes).filter (· ≠ 0) = decode false bytes :=
    List.filter_eq_self.2 fun v hv => decide_eq_true fun hv₀ => h₀ (hv₀ ▸ hv)
  rw [hfilter] at hall
  simpa [keyOf] using hall

end Keyboard
