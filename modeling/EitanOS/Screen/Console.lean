import EitanOS.Screen.Flush

/-!
# The console

`screen_print`, `screen_scroll` and `screen_clear` change the text of the console and redraw it.

* `printByte`, `print`, `scrollTo`, `clear`: the code.
* **`Console.Valid.printByte`**: the text stays inside the buffer and has no zero.
* `Call`, `session`: the calls, and what each of them leaves and draws.
* **`console_redraws`**: every call of every session returns and redraws the grid.
-/

namespace Screen

/-! ## The functions -/

/-- `buffer[i] = c`. -/
def storeAt (buffer : List UInt8) (i : ℕ) (c : UInt8) : Option (List UInt8) :=
  if i < buffer.length then some (buffer.set i c) else none

/-- A full buffer is written from its start again. -/
def wrapEnd (s : Console) : Console := if bufferSize ≤ s.bufferEnd then { s with bufferEnd := 0 } else s

/-- `buffer[buffer_end++] = c`. -/
def append (s : Console) (c : UInt8) : Option Console := do
  let buffer ← storeAt s.buffer s.bufferEnd c
  return { s with buffer := buffer, bufferEnd := s.bufferEnd + 1 }

/-- The blanks of a tab. -/
def tabLoop : ℕ → Console → Option Console
  | 0, s => return s
  | spaces + 1, s =>
    if s.bufferEnd < bufferSize then do
      let s ← append s blank
      tabLoop spaces s
    else return s

/-- `'\b'`. -/
def backspace (s : Console) : Option Console :=
  if 0 < s.bufferEnd then do
    let buffer ← storeAt s.buffer s.bufferEnd 0
    return { s with buffer := buffer, bufferEnd := s.bufferEnd - 1 }
  else return s

/-- A character of the message. -/
def printByte (d : Display) (s : Console) (c : UInt8) : Option Console :=
  if c = 8 then backspace (wrapEnd s)
  else if c = 13 then
    return { wrapEnd s with bufferEnd := (wrapEnd s).bufferEnd - (wrapEnd s).bufferEnd % d.width }
  else if c = 9 then tabLoop (4 - (wrapEnd s).bufferEnd % 4) (wrapEnd s)
  else append (wrapEnd s) c

/-- A redraw. -/
def redraw (d : Display) (s : Console) : Option (Console × List Draw) := do
  let ds ← flush d s
  return (s, ds)

/-- `screen_print`. -/
def print (d : Display) (s : Console) (msg : List UInt8) : Option (Console × List Draw) := do
  let s ← msg.foldlM (printByte d) s
  redraw d s

/-- `screen_scroll`. -/
def scrollTo (d : Display) (s : Console) (line : ℤ) : Option (Console × List Draw) :=
  redraw d { s with scroll := (max line 0).toNat }

/-- `screen_clear`. -/
def clear (d : Display) : Option (Console × List Draw) := redraw d ⟨List.replicate bufferSize 0, 0, 0⟩

/-- The calls of the console. -/
inductive Call
  | print (msg : List UInt8)
  | scroll (line : ℤ)
  | clear

namespace Call

/-- Messages are strings without a zero, and lines are numbered by an `int`. -/
def Ok : Call → Prop
  | print msg => 0 ∉ msg ∧ msg.length < 2 ^ 31
  | scroll line => -2 ^ 31 ≤ line ∧ line < 2 ^ 31
  | clear => True

/-- The console after a call, and what is drawn. -/
def exec (d : Display) (s : Console) : Call → Option (Console × List Draw)
  | print msg => Screen.print d s msg
  | scroll line => scrollTo d s line
  | clear => Screen.clear d

end Call

/-- The consoles after the calls, each with what its call draws. -/
def session (d : Display) : Console → List Call → Option (List (Console × List Draw))
  | _, [] => return []
  | s, c :: calls => do
    let x ← c.exec d s
    let rest ← session d x.1 calls
    return x :: rest

/-- The console at the start. -/
def start : Console := ⟨List.replicate bufferSize 0, 0, 0⟩

variable {d : Display} {s : Console} {c : UInt8} {n : ℕ}

/-! ## The text stays inside the buffer -/

namespace Console.Valid

theorem shorten (h : s.Valid) (hn : n ≤ s.bufferEnd) : Valid { s with bufferEnd := n } :=
  ⟨h.length_buffer, hn.trans h.bufferEnd_le, fun hm => h.zero_notMem (List.take_subset_take_left _ hn hm)⟩

theorem wrapEnd (h : s.Valid) : (wrapEnd s).Valid ∧ (Screen.wrapEnd s).bufferEnd < bufferSize := by
  unfold Screen.wrapEnd
  split_ifs with hfull
  · exact ⟨h.shorten (Nat.zero_le _), Nat.zero_lt_succ _⟩
  · exact ⟨h, Nat.not_le.mp hfull⟩

/-- **A character behind the text.** -/
theorem append (h : s.Valid) (hlt : s.bufferEnd < bufferSize) (hc : c ≠ 0) :
    ∃ s', append s c = some s' ∧ s'.Valid := by
  have hlen : s.bufferEnd < s.buffer.length := h.length_buffer ▸ hlt
  refine ⟨{ s with buffer := s.buffer.set s.bufferEnd c, bufferEnd := s.bufferEnd + 1 }, ?_, ?_, hlt, ?_⟩
  · simp [Screen.append, storeAt, hlen]
  · simpa using h.length_buffer
  · have htake : (s.buffer.set s.bufferEnd c).take (s.bufferEnd + 1) = s.buffer.take s.bufferEnd ++ [c] := by
      rw [List.take_succ_eq_append_getElem (by simpa using hlen), List.take_set_of_le (Nat.le_refl _)]
      simp
    rw [htake, List.mem_append, List.mem_singleton, not_or]
    exact ⟨h.zero_notMem, Ne.symm hc⟩

theorem tabLoop (h : s.Valid) (n : ℕ) : ∃ s', tabLoop n s = some s' ∧ s'.Valid := by
  induction n generalizing s with
  | zero => exact ⟨s, rfl, h⟩
  | succ n ih =>
    rw [Screen.tabLoop]
    split_ifs with hlt
    · obtain ⟨s₁, he, h₁⟩ := h.append hlt (c := blank) (by decide)
      rw [he]
      exact ih h₁
    · exact ⟨s, rfl, h⟩

theorem backspace (h : s.Valid) (hlt : s.bufferEnd < bufferSize) : ∃ s', backspace s = some s' ∧ s'.Valid := by
  unfold Screen.backspace
  split_ifs
  · have hlen : s.bufferEnd < s.buffer.length := h.length_buffer ▸ hlt
    have hset : Valid { s with buffer := s.buffer.set s.bufferEnd 0 } := by
      refine ⟨by simpa using h.length_buffer, h.bufferEnd_le, ?_⟩
      rw [List.take_set_of_le (Nat.le_refl _)]
      exact h.zero_notMem
    exact ⟨_, by simp [storeAt, hlen], hset.shorten (n := s.bufferEnd - 1) (Nat.sub_le _ _)⟩
  · exact ⟨s, rfl, h⟩

/-- **One character of a message.** -/
theorem printByte (h : s.Valid) (hc : c ≠ 0) : ∃ s', printByte d s c = some s' ∧ s'.Valid := by
  obtain ⟨hw, hlt⟩ := h.wrapEnd
  unfold Screen.printByte
  split_ifs
  · exact hw.backspace hlt
  · exact ⟨_, rfl, hw.shorten (Nat.sub_le _ _)⟩
  · exact hw.tabLoop _
  · exact hw.append hlt hc

theorem foldlM_printByte {msg : List UInt8} (h : s.Valid) (hm : 0 ∉ msg) :
    ∃ s', msg.foldlM (Screen.printByte d) s = some s' ∧ s'.Valid := by
  induction msg generalizing s with
  | nil => exact ⟨s, rfl, h⟩
  | cons c msg ih =>
    rw [List.mem_cons, not_or] at hm
    obtain ⟨s₁, he, h₁⟩ := h.printByte (d := d) (Ne.symm hm.1)
    rw [List.foldlM_cons, he]
    exact ih h₁ hm.2

end Console.Valid

theorem valid_start : start.Valid :=
  ⟨List.length_replicate, Nat.zero_le _, List.not_mem_nil⟩

/-! ## Sessions -/

theorem redraw_drawn (hd : d.Valid) (h : s.Valid) :
    ∃ x, redraw d s = some x ∧ x.1.Valid ∧ Redrawn d x.1 x.2 := by
  obtain ⟨ds, he, hds⟩ := flush_drawn hd h
  exact ⟨(s, ds), by rw [redraw, he]; rfl, h, hds⟩

/-- **One call.** -/
theorem Call.exec_drawn (hd : d.Valid) (h : s.Valid) {c : Call} (hc : c.Ok) :
    ∃ x, c.exec d s = some x ∧ x.1.Valid ∧ Redrawn d x.1 x.2 := by
  cases c with
  | print msg =>
    obtain ⟨s₁, he, h₁⟩ := h.foldlM_printByte (d := d) hc.1
    rw [Call.exec, Screen.print, he]
    exact redraw_drawn hd h₁
  | scroll line => exact redraw_drawn hd ⟨h.length_buffer, h.bufferEnd_le, h.zero_notMem⟩
  | clear => exact redraw_drawn hd valid_start

theorem session_drawn (hd : d.Valid) (h : s.Valid) {calls : List Call} (hc : ∀ c ∈ calls, c.Ok) :
    ∃ trace, session d s calls = some trace ∧ trace.length = calls.length ∧
      ∀ x ∈ trace, x.1.bufferEnd ≤ bufferSize ∧ Redrawn d x.1 x.2 := by
  induction calls generalizing s with
  | nil => exact ⟨[], rfl, rfl, nofun⟩
  | cons c calls ih =>
    rw [List.forall_mem_cons] at hc
    obtain ⟨x, he, hx, hds⟩ := Call.exec_drawn hd h hc.1
    obtain ⟨trace, he', hlen, htrace⟩ := ih hx hc.2
    refine ⟨x :: trace, ?_, congrArg (· + 1) hlen, List.forall_mem_cons.mpr ⟨⟨hx.bufferEnd_le, hds⟩, htrace⟩⟩
    rw [session, he]
    simp only [Option.bind_eq_bind, Option.bind_some, he']
    rfl

/-- **The console is redrawn by every call of every session.** No call leaves the buffer, every redraw comes to
an end, and what it draws is the black framebuffer or the grid of the wrapped text. -/
theorem console_redraws (d : Display) (hd : d.Valid) (calls : List Call) (hc : ∀ c ∈ calls, c.Ok) :
    ∃ trace, session d start calls = some trace ∧ trace.length = calls.length ∧
      ∀ x ∈ trace, x.1.bufferEnd ≤ bufferSize ∧ Redrawn d x.1 x.2 :=
  session_drawn hd valid_start hc

theorem console_redraws_example : ∃ trace, session ⟨24, 18, 9⟩ start
      [.print [97, 10, 98], .scroll 1, .clear] = some trace ∧ trace.length = 3 ∧
    ∀ x ∈ trace, x.1.bufferEnd ≤ bufferSize ∧ Redrawn ⟨24, 18, 9⟩ x.1 x.2 :=
  console_redraws ⟨24, 18, 9⟩ ⟨by decide, by decide, by decide, by decide⟩
    [.print [97, 10, 98], .scroll 1, .clear] (by simp [Call.Ok])

end Screen
