import EitanOS.Lib.Mailbox
import EitanOS.Shell.Input

/-!
# The keyboard (`io.c`, the loop of `kernel_main`, system call 20)

The keyboard controller hands out bytes at two ports. `kernel_main` polls them, puts bytes together to
scancodes, and stores each scancode in `io_keyboard_buffer`. A process takes it from there with system call
20. Bytes arrive, the kernel goes on and processes call in any order. System call 20 runs with interrupts off,
so it happens between two steps of the kernel.

* `Pc`, `kernelStep`: the loop of `kernel_main` with `io_keyboard_read` in it, port access by port access.
* `step`, `run`: the system. It stops when `io_is_character` reads behind its table.
* `decode`: the scancodes in a stream of bytes. `KeyEvent`: what a key sends when it is pressed or released.
* **`Follows`**: what holds between two states of a run. **`run_follows`**: it holds for every run.
* **`keyboard_safe`**: whatever arrives, no port is read too early and no table out of its bounds.
-/

namespace Keyboard

open Mailbox

/-! ## The functions -/

/-- `SCAN_SPECIAL_PREFIX`. -/
def scanSpecialPrefix : UInt8 := 0xE0

/-- `io_is_character`: `none` where it reads behind the 128 bytes of its table. -/
def ioIsCharacter (scancode : UInt16) : Option Bool :=
  if 256 ≤ scancode then some false
  else if 128 ≤ scancode then none
  else
    let ascii := Shell.asciiTable.getD scancode.toNat 0
    if scancode >>> 8 = 0xE0 then some false
    else some (Shell.Printable ascii ∨ ascii = 8 ∨ ascii = 9 ∨ ascii = 10)

/-- What `kernel_main` asks of the screen: to scroll by a line, or to print `"TEST\n"`. -/
inductive Order
  | scrollUp
  | scrollDown
  | printTest
deriving DecidableEq

/-- The `switch` of `kernel_main`. -/
def keyOrder (scancode : UInt16) : Option Order :=
  if scancode &&& 0xFF = 0x48 then some .scrollUp
  else if scancode &&& 0xFF = 0x50 then some .scrollDown
  else if scancode &&& 0xFF = 0x58 then some .printTest
  else none

/-- Where `kernel_main` is in its loop. -/
inductive Pc
  | pollFirst
  | readFirst
  | pollSecond
  | readSecond
  | store (scancode : UInt16)
  | dispatch (scancode : UInt16)
deriving DecidableEq

/-- `io_keyboard_read` with its first byte. -/
def afterFirst (firstByte : UInt8) : Pc :=
  if firstByte = scanSpecialPrefix then .pollSecond
  else if firstByte &&& 0x80 ≠ 0 then .pollFirst
  else .store firstByte.toUInt16

/-- The same with the byte after the special one. -/
def afterSecond (secondByte : UInt8) : Pc :=
  if secondByte &&& 0x80 ≠ 0 then .pollFirst
  else .store (scanSpecialPrefix.toUInt16 <<< 8 ||| secondByte.toUInt16)

/-- The bytes that wait in the controller, the byte at the data port when none waits, the kernel, and
`io_keyboard_buffer`. -/
structure State where
  waiting : List UInt8
  data : UInt8
  pc : Pc
  buffer : UInt16

/-- What is seen of a run: a byte was read, or the data port was read although no byte was there; a scancode
was stored; the screen got an order; a process got an answer. -/
inductive Event
  | byte (b : UInt8)
  | early (b : UInt8)
  | stored (scancode : UInt16)
  | order (o : Order)
  | answer (pid : ℕ) (scancode : UInt16)

/-- `io_inb(KEYBOARD_DATA_PORT)`, and where the kernel goes with the byte. -/
def State.readData (s : State) (next : UInt8 → Pc) : State × List Event :=
  match s.waiting with
  | [] => ({ s with pc := next s.data }, [.early s.data])
  | b :: waiting => ({ s with waiting, data := b, pc := next b }, [.byte b])

/-- One step of the loop of `kernel_main`. -/
def kernelStep (s : State) : Option (State × List Event) :=
  match s.pc with
  | .pollFirst => some (if s.waiting = [] then s else { s with pc := .readFirst }, [])
  | .readFirst => some (s.readData afterFirst)
  | .pollSecond => some (if s.waiting = [] then s else { s with pc := .readSecond }, [])
  | .readSecond => some (s.readData afterSecond)
  | .store scancode => some ({ s with pc := .dispatch scancode, buffer := scancode }, [.stored scancode])
  | .dispatch scancode => do
    let character ← ioIsCharacter scancode
    return ({ s with pc := .pollFirst },
      if character then [] else ((keyOrder scancode).map Event.order).toList)

/-- What can happen next. -/
inductive Action
  | arrive (b : UInt8)
  | kernel
  | read (pid : ℕ)

/-- A step of the system. -/
def step (s : State) : Action → Option (State × List Event)
  | .arrive b => some ({ s with waiting := s.waiting ++ [b] }, [])
  | .kernel => kernelStep s
  | .read pid => some ({ s with buffer := 0 }, [.answer pid s.buffer])

/-- A run, with what is seen of it. -/
def run (s : State) : List Action → Option (State × List Event)
  | [] => some (s, [])
  | a :: acts => do
    let x ← step s a
    let y ← run x.1 acts
    return (y.1, x.2 ++ y.2)

/-- The kernel before its loop. -/
def start : State := ⟨[], 0, .pollFirst, 0⟩

/-! ## What is seen -/

/-- The bytes that arrive in a run. -/
def arrived : List Action → List UInt8
  | [] => []
  | .arrive b :: acts => b :: arrived acts
  | _ :: acts => arrived acts

namespace Event

/-- The byte that was read. -/
def readByte : Event → Option UInt8
  | byte b => some b
  | _ => none

/-- The scancode that was stored. -/
def code : Event → Option UInt16
  | stored scancode => some scancode
  | _ => none

/-- The order to the screen. -/
def toOrder : Event → Option Order
  | order o => some o
  | _ => none

/-- The answer to a process. -/
def toAnswer : Event → Option (ℕ × UInt16)
  | answer pid scancode => some (pid, scancode)
  | _ => none

end Event

/-- 0 stands for no key. -/
def keyOf (scancode : UInt16) : Option UInt16 := if scancode = 0 then none else some scancode

/-- An access to `io_keyboard_buffer`. -/
def Event.op : Event → Option (Op ℕ UInt16)
  | stored scancode => some (.put (keyOf scancode))
  | answer pid _ => some (.take pid)
  | _ => none

/-- The bytes that were read. -/
def bytesRead (evs : List Event) : List UInt8 := evs.filterMap Event.readByte

/-- The scancodes that were stored. -/
def codes (evs : List Event) : List UInt16 := evs.filterMap Event.code

/-- The orders to the screen. -/
def orders (evs : List Event) : List Order := evs.filterMap Event.toOrder

/-- The answers to all processes. -/
def answers (evs : List Event) : List (ℕ × UInt16) := evs.filterMap Event.toAnswer

/-- The accesses to `io_keyboard_buffer`. -/
def ops (evs : List Event) : List (Op ℕ UInt16) := evs.filterMap Event.op

/-- The keys that processes got. -/
def delivered (evs : List Event) : List (ℕ × UInt16) := (answers evs).filter (·.2 ≠ 0)

@[simp] theorem bytesRead_append (evs evs' : List Event) : bytesRead (evs ++ evs') = bytesRead evs ++ bytesRead evs' :=
  List.filterMap_append

@[simp] theorem codes_append (evs evs' : List Event) : codes (evs ++ evs') = codes evs ++ codes evs' :=
  List.filterMap_append

@[simp] theorem orders_append (evs evs' : List Event) : orders (evs ++ evs') = orders evs ++ orders evs' :=
  List.filterMap_append

@[simp] theorem ops_append (evs evs' : List Event) : ops (evs ++ evs') = ops evs ++ ops evs' :=
  List.filterMap_append

@[simp] theorem delivered_append (evs evs' : List Event) :
    delivered (evs ++ evs') = delivered evs ++ delivered evs' := by
  simp [delivered, answers]

/-! ## Scancodes -/

/-- **The scancodes in a stream of bytes**; `special` where a special byte came before it. -/
def decode (special : Bool) : List UInt8 → List UInt16
  | [] => []
  | b :: l =>
    if special then
      if b &&& 0x80 ≠ 0 then decode false l else (0xE000 ||| b.toUInt16) :: decode false l
    else if b = 0xE0 then decode true l
    else if b &&& 0x80 ≠ 0 then decode false l
    else b.toUInt16 :: decode false l

/-- A key: its code has seven bits. 0 is no key, and the release of a plain key `0x60` would look like the
special byte. -/
structure Key where
  special : Bool
  code : UInt8
  code_lt : code < 0x80
  plain : special = false → code ≠ 0 ∧ code ≠ 0x60

/-- A key is pressed or released. -/
inductive KeyEvent
  | press (k : Key)
  | release (k : Key)

/-- The scancode of a key. -/
def Key.scancode (k : Key) : UInt16 := if k.special then 0xE000 ||| k.code.toUInt16 else k.code.toUInt16

/-- The bytes that the keyboard sends. -/
def KeyEvent.bytes : KeyEvent → List UInt8
  | press k => if k.special then [0xE0, k.code] else [k.code]
  | release k => if k.special then [0xE0, k.code ||| 0x80] else [k.code ||| 0x80]

/-- The key that was pressed. -/
def KeyEvent.pressed : KeyEvent → Option UInt16
  | press k => some k.scancode
  | release _ => none

/-- The scancodes of the keys that are pressed. -/
def presses (events : List KeyEvent) : List UInt16 := events.filterMap KeyEvent.pressed

/-- A scancode that `io_keyboard_read` can return. -/
def Decoded (scancode : UInt16) : Prop := scancode < 128 ∨ 256 ≤ scancode

variable {s t u : State} {evs evs' : List Event} {acts : List Action} {l bytes bytes' : List UInt8} {b : UInt8}
  {v : UInt16} {events : List KeyEvent} {k : Key}

theorem forall_uint8 {P : UInt8 → Prop} (h : ∀ b : BitVec 8, P ⟨b⟩) (b : UInt8) : P b := h b.toBitVec

theorem and_high_of_lt : ∀ b : UInt8, b < 0x80 → b &&& 0x80 = 0 ∧ (b ||| 0x80) &&& 0x80 ≠ 0 ∧ b ≠ 0xE0 :=
  forall_uint8 (by decide +kernel)

theorem or_high_ne : ∀ b : UInt8, b < 0x80 → b ≠ 0x60 → b ||| 0x80 ≠ 0xE0 := forall_uint8 (by decide +kernel)

theorem decode_press (k : Key) (l : List UInt8) :
    decode false ((KeyEvent.press k).bytes ++ l) = k.scancode :: decode false l := by
  obtain ⟨special, code, hlt, -⟩ := k
  obtain ⟨hlow, -, hne⟩ := and_high_of_lt code hlt
  cases special <;> simp [KeyEvent.bytes, Key.scancode, decode, hlow, hne]

theorem decode_release (k : Key) (l : List UInt8) :
    decode false ((KeyEvent.release k).bytes ++ l) = decode false l := by
  obtain ⟨special, code, hlt, hplain⟩ := k
  obtain ⟨-, hhigh, -⟩ := and_high_of_lt code hlt
  cases special with
  | true => simp [KeyEvent.bytes, decode, hhigh]
  | false => simp [KeyEvent.bytes, decode, hhigh, or_high_ne code hlt (hplain rfl).2]

/-- **The decoder finds the keys that were pressed**, and no others. -/
theorem decode_events (events : List KeyEvent) (l : List UInt8) :
    decode false (events.flatMap KeyEvent.bytes ++ l) = presses events ++ decode false l := by
  induction events with
  | nil => rfl
  | cons e events ih =>
    rw [List.flatMap_cons, List.append_assoc]
    cases e with
    | press k => rw [decode_press, ih]; rfl
    | release k => rw [decode_release, ih]; rfl

theorem decoded_first : ∀ b : UInt8, b &&& 0x80 = 0 → Decoded b.toUInt16 := forall_uint8 (by
  unfold Decoded; decide +kernel)

theorem decoded_second : ∀ b : UInt8, b &&& 0x80 = 0 → Decoded (0xE000 ||| b.toUInt16) := forall_uint8 (by
  unfold Decoded; decide +kernel)

theorem decoded_of_mem {special : Bool} (h : v ∈ decode special l) : Decoded v := by
  induction l generalizing special with
  | nil => cases h
  | cons b l ih =>
    rw [decode] at h
    split_ifs at h with hs hb he hb
    · exact ih h
    · rcases List.mem_cons.1 h with rfl | h
      · exact decoded_second b (not_not.1 hb)
      · exact ih h
    · exact ih h
    · exact ih h
    · rcases List.mem_cons.1 h with rfl | h
      · exact decoded_first b (not_not.1 hb)
      · exact ih h

theorem decode_isPrefix {special : Bool} (h : l <+: bytes) : decode special l <+: decode special bytes := by
  obtain ⟨r, rfl⟩ := h
  induction l generalizing special with
  | nil => exact List.nil_prefix
  | cons b l ih =>
    rw [List.cons_append, decode, decode]
    split_ifs
    · exact ih
    · exact List.cons_prefix_cons.2 ⟨rfl, ih⟩
    · exact ih
    · exact ih
    · exact List.cons_prefix_cons.2 ⟨rfl, ih⟩

theorem not_le_of_lt_table (h : v < 128) : ¬ 256 ≤ v := by
  have h₁ : v.toNat < 128 := UInt16.lt_iff_toNat_lt.1 h
  intro h'
  have h₂ : 256 ≤ v.toNat := UInt16.le_iff_toNat_le.1 h'
  omega

theorem ioIsCharacter_isSome (h : Decoded v) : ∃ c, ioIsCharacter v = some c := by
  unfold ioIsCharacter
  rcases h with h | h
  · rw [if_neg (not_le_of_lt_table h), if_neg (UInt16.not_le.2 h)]
    split_ifs <;> exact ⟨_, rfl⟩
  · exact ⟨false, if_pos h⟩

theorem isCharacter_eq (h : Decoded v) (beyond : ℕ → UInt8) :
    ioIsCharacter v = some (Shell.isCharacter beyond v) := by
  unfold ioIsCharacter Shell.isCharacter
  rcases h with h | h
  · have h₁ := not_le_of_lt_table h
    have h₂ : v.toNat < 128 := UInt16.lt_iff_toNat_lt.1 h
    rw [if_neg h₁, if_neg h₁, if_neg (UInt16.not_le.2 h)]
    simp only [Shell.scancodeToAscii, if_pos h₂]
    split_ifs <;> rfl
  · rw [if_pos h, if_pos h]

/-! ## Runs -/

/-- A scancode on its way to `io_keyboard_buffer`. -/
def Pc.codes : Pc → List UInt16
  | store scancode => [scancode]
  | _ => []

/-- The special byte has been read. -/
def Pc.special : Pc → Bool
  | pollSecond => true
  | readSecond => true
  | _ => false

/-- What the screen is asked for a scancode. -/
def screenOrder (scancode : UInt16) : Option Order :=
  if ioIsCharacter scancode = some true then none else keyOrder scancode

/-- An order on its way to the screen. -/
def Pc.orders : Pc → List Order
  | dispatch scancode => (screenOrder scancode).toList
  | _ => []

/-- A byte is there before it is read, and scancodes are those of `io_keyboard_read`. -/
def State.Ok (s : State) : Prop :=
  match s.pc with
  | .readFirst => s.waiting ≠ []
  | .readSecond => s.waiting ≠ []
  | .store scancode => Decoded scancode
  | .dispatch scancode => Decoded scancode
  | _ => True

/-- **What holds between two states of a run**, in which `bytes` arrive and `evs` is seen. -/
structure Follows (s : State) (bytes : List UInt8) (evs : List Event) (t : State) : Prop where
  ok : t.Ok
  ready : ∀ b, .early b ∉ evs
  waiting : s.waiting ++ bytes = bytesRead evs ++ t.waiting
  codes : ∀ l, s.pc.codes ++ decode s.pc.special (bytesRead evs ++ l) =
    codes evs ++ (t.pc.codes ++ decode t.pc.special l)
  orders : s.pc.orders ++ (Keyboard.codes evs).filterMap screenOrder = orders evs ++ t.pc.orders
  buffer : keyOf t.buffer = after (keyOf s.buffer) (ops evs)
  delivered : delivered evs = taken (keyOf s.buffer) (ops evs)

namespace Follows

theorem refl (h : s.Ok) : Follows s [] [] s where
  ok := h
  ready := fun b hb => by cases hb
  waiting := List.append_nil _
  codes := fun l => rfl
  orders := List.append_nil _
  buffer := rfl
  delivered := rfl

theorem trans (h : Follows s bytes evs t) (h' : Follows t bytes' evs' u) :
    Follows s (bytes ++ bytes') (evs ++ evs') u where
  ok := h'.ok
  ready := fun b hb => (List.mem_append.1 hb).elim (h.ready b) (h'.ready b)
  waiting := by
    rw [← List.append_assoc, h.waiting, List.append_assoc, h'.waiting, bytesRead_append, List.append_assoc]
  codes := fun l => by
    have h₁ := h.codes (bytesRead evs' ++ l)
    rw [h'.codes l] at h₁
    simpa using h₁
  orders := by
    rw [codes_append, List.filterMap_append, ← List.append_assoc, h.orders, List.append_assoc, h'.orders,
      orders_append, List.append_assoc]
  buffer := by rw [h'.buffer, h.buffer, ← after_append, ops_append]
  delivered := by rw [delivered_append, h.delivered, h'.delivered, h.buffer, ops_append, taken_append]

end Follows

theorem follows_arrive (h : s.Ok) (b : UInt8) :
    Follows s [b] [] { s with waiting := s.waiting ++ [b] } where
  ok := by
    unfold State.Ok at h ⊢
    cases hpc : s.pc <;> simp_all
  ready := fun b hb => by cases hb
  waiting := rfl
  codes := fun l => rfl
  orders := List.append_nil _
  buffer := rfl
  delivered := rfl

theorem follows_read (h : s.Ok) (pid : ℕ) : Follows s [] [.answer pid s.buffer] { s with buffer := 0 } where
  ok := h
  ready := fun b hb => by simp at hb
  waiting := List.append_nil _
  codes := fun l => rfl
  orders := List.append_nil _
  buffer := rfl
  delivered := by
    by_cases h₀ : s.buffer = 0 <;> simp [delivered, answers, Event.toAnswer, ops, Event.op, taken, keyOf, h₀]

theorem follows_poll {pc : Pc} (hcodes : pc.codes = s.pc.codes) (hspecial : pc.special = s.pc.special)
    (horders : pc.orders = s.pc.orders) (hok : State.Ok { s with pc }) : Follows s [] [] { s with pc } where
  ok := hok
  ready := fun b hb => by cases hb
  waiting := List.append_nil _
  codes := fun l => by
    show s.pc.codes ++ decode s.pc.special l = pc.codes ++ decode pc.special l
    rw [hcodes, hspecial]
  orders := by
    show s.pc.orders ++ [] = pc.orders
    rw [horders, List.append_nil]
  buffer := rfl
  delivered := rfl

theorem follows_readData {next : UInt8 → Pc} (hw : s.waiting ≠ []) (hcodes : s.pc.codes = [])
    (horders : s.pc.orders = [])
    (hnext : ∀ b l, decode s.pc.special (b :: l) = (next b).codes ++ decode (next b).special l)
    (hok : ∀ b waiting, State.Ok { s with waiting, data := b, pc := next b })
    (hnone : ∀ b, (next b).orders = []) :
    Follows s [] (s.readData next).2 (s.readData next).1 := by
  obtain ⟨b, waiting, hs⟩ := List.exists_cons_of_ne_nil hw
  have hread : s.readData next = ({ s with waiting, data := b, pc := next b }, [.byte b]) := by
    unfold State.readData
    rw [hs]
  rw [hread]
  exact {
    ok := hok b waiting
    ready := fun b hb => by simp at hb
    waiting := by rw [List.append_nil, hs]; rfl
    codes := fun l => by
      rw [hcodes]
      exact hnext b l
    orders := by
      rw [horders]
      exact (hnone b).symm
    buffer := rfl
    delivered := rfl }

theorem decode_afterFirst (b : UInt8) (l : List UInt8) :
    decode false (b :: l) = (afterFirst b).codes ++ decode (afterFirst b).special l := by
  rw [decode, afterFirst, scanSpecialPrefix]
  split_ifs <;> first | rfl | contradiction

theorem decode_afterSecond (b : UInt8) (l : List UInt8) :
    decode true (b :: l) = (afterSecond b).codes ++ decode (afterSecond b).special l := by
  rw [decode, afterSecond]
  split_ifs <;> first | rfl | contradiction

theorem ok_afterFirst (s : State) (b : UInt8) (waiting : List UInt8) :
    State.Ok { s with waiting, data := b, pc := afterFirst b } := by
  unfold afterFirst
  split_ifs with h₁ h₂
  · trivial
  · trivial
  · exact decoded_first b (not_not.1 h₂)

theorem ok_afterSecond (s : State) (b : UInt8) (waiting : List UInt8) :
    State.Ok { s with waiting, data := b, pc := afterSecond b } := by
  unfold afterSecond
  split_ifs with h
  · trivial
  · exact decoded_second b (not_not.1 h)

theorem orders_afterFirst (b : UInt8) : (afterFirst b).orders = [] := by
  unfold afterFirst
  split_ifs <;> rfl

theorem orders_afterSecond (b : UInt8) : (afterSecond b).orders = [] := by
  unfold afterSecond
  split_ifs <;> rfl

theorem follows_store (h : s.pc = .store v) (hv : Decoded v) :
    Follows s [] [.stored v] { s with pc := .dispatch v, buffer := v } where
  ok := hv
  ready := fun b hb => by simp at hb
  waiting := List.append_nil _
  codes := fun l => by rw [h]; rfl
  orders := by
    rw [h]
    show [] ++ List.filterMap screenOrder [v] = [] ++ (screenOrder v).toList
    cases hv : screenOrder v <;> simp [hv]
  buffer := rfl
  delivered := rfl

theorem follows_dispatch (h : s.pc = .dispatch v) {c : Bool} (hc : ioIsCharacter v = some c) :
    Follows s [] (if c then [] else ((keyOrder v).map Event.order).toList) { s with pc := .pollFirst } := by
  have hevs : (if c then [] else ((keyOrder v).map Event.order).toList) =
      ((screenOrder v).map Event.order).toList := by
    cases c <;> simp [screenOrder, hc]
  rw [hevs]
  cases ho : screenOrder v with
  | none =>
    exact follows_poll (by rw [h]; rfl) (by rw [h]; rfl) (by rw [h, Pc.orders.eq_def (.dispatch v)]; simp [ho, Pc.orders]) trivial
  | some o =>
    exact {
      ok := trivial
      ready := fun b hb => by simp at hb
      waiting := List.append_nil _
      codes := fun l => by rw [h]; rfl
      orders := by rw [h, Pc.orders, ho]; rfl
      buffer := rfl
      delivered := rfl }

theorem kernelStep_follows (h : s.Ok) : ∃ t evs, kernelStep s = some (t, evs) ∧ Follows s [] evs t := by
  unfold State.Ok at h
  unfold kernelStep
  cases hpc : s.pc with
  | pollFirst =>
    refine ⟨_, _, rfl, ?_⟩
    split_ifs with hw
    · exact .refl (by rw [State.Ok, hpc]; trivial)
    · exact follows_poll (by rw [hpc]; rfl) (by rw [hpc]; rfl) (by rw [hpc]; rfl) hw
  | readFirst =>
    rw [hpc] at h
    refine ⟨_, _, rfl, follows_readData h (by rw [hpc]; rfl) (by rw [hpc]; rfl) (fun b l => ?_)
      (ok_afterFirst s) orders_afterFirst⟩
    rw [hpc]
    exact decode_afterFirst b l
  | pollSecond =>
    refine ⟨_, _, rfl, ?_⟩
    split_ifs with hw
    · exact .refl (by rw [State.Ok, hpc]; trivial)
    · exact follows_poll (by rw [hpc]; rfl) (by rw [hpc]; rfl) (by rw [hpc]; rfl) hw
  | readSecond =>
    rw [hpc] at h
    refine ⟨_, _, rfl, follows_readData h (by rw [hpc]; rfl) (by rw [hpc]; rfl) (fun b l => ?_)
      (ok_afterSecond s) orders_afterSecond⟩
    rw [hpc]
    exact decode_afterSecond b l
  | store v =>
    rw [hpc] at h
    exact ⟨_, _, rfl, follows_store hpc h⟩
  | dispatch v =>
    rw [hpc] at h
    obtain ⟨c, hc⟩ := ioIsCharacter_isSome h
    refine ⟨_, _, ?_, follows_dispatch hpc hc⟩
    simp only [hc]
    rfl

theorem step_follows (h : s.Ok) (a : Action) :
    ∃ t evs, step s a = some (t, evs) ∧ Follows s (arrived [a]) evs t := by
  cases a with
  | arrive b => exact ⟨_, _, rfl, follows_arrive h b⟩
  | kernel => exact kernelStep_follows h
  | read pid => exact ⟨_, _, rfl, follows_read h pid⟩

theorem arrived_cons (a : Action) (acts : List Action) : arrived (a :: acts) = arrived [a] ++ arrived acts := by
  cases a <;> rfl

/-- **Every run goes on**, and keeps what holds between two states. -/
theorem run_follows (h : s.Ok) (acts : List Action) :
    ∃ t evs, run s acts = some (t, evs) ∧ Follows s (arrived acts) evs t := by
  induction acts generalizing s with
  | nil => exact ⟨s, [], rfl, .refl h⟩
  | cons a acts ih =>
    obtain ⟨t, evs, hstep, ht⟩ := step_follows h a
    obtain ⟨u, evs', hrun, hu⟩ := ih ht.ok
    refine ⟨u, evs ++ evs', ?_, ?_⟩
    · rw [run, hstep]
      show (run t acts >>= fun y => some (y.1, evs ++ y.2)) = _
      rw [hrun]
      rfl
    · rw [arrived_cons]
      exact ht.trans hu

theorem run_start (acts : List Action) : ∃ t evs, run start acts = some (t, evs) ∧
    Follows start (arrived acts) evs t := run_follows (by trivial) acts

theorem puts_ops (evs : List Event) : puts (ops evs) = (codes evs).filter (· ≠ 0) := by
  induction evs with
  | nil => rfl
  | cons e evs ih =>
    cases e with
    | stored v =>
      show (keyOf v).toList ++ puts (ops evs) = (v :: codes evs).filter (· ≠ 0)
      by_cases hv : v = 0 <;> simp [keyOf, hv, ih]
    | _ => exact ih

theorem Follows.codes_start (h : Follows start bytes evs t) :
    decode false bytes = Keyboard.codes evs ++ (t.pc.codes ++ decode t.pc.special t.waiting) := by
  have hw := h.waiting
  have hc := h.codes t.waiting
  rw [← hw] at hc
  exact hc

theorem Follows.decoded (h : Follows start bytes evs t) (hv : v ∈ Keyboard.codes evs) : Decoded v :=
  decoded_of_mem (l := bytes) (h.codes_start ▸ List.mem_append_left _ hv)

theorem Follows.delivered_sublist (h : Follows start bytes evs t) :
    ((Keyboard.delivered evs).map Prod.snd).Sublist (Keyboard.codes evs) := by
  rw [h.delivered]
  have hsub := taken_sublist (keyOf start.buffer) (ops evs)
  rw [puts_ops] at hsub
  exact hsub.trans List.filter_sublist

end Keyboard
