import EitanOS.Shell.Command

/-!
# Reading a command line

`read_command_line` keeps the characters in a buffer of 128 bytes, with a counter that starts again at 0
when the buffer is full, and leaves what stands behind the counter as it is.

* `readKey`, `readLoop`: one key, and the keys up to Enter.
* `Editor`: the text that was typed since the buffer was last full, and the longest it was since.
* **`Buffered`**: the buffer of an editor: the text, zeros up to the longest text, and old characters.
* **`exec_readKey`**, `exec_readLoop`: a key, and all the keys.
* **`command_line_safe_iff`**: for which keys the buffer has a final zero and `parse_command_line` stays
  inside it.
-/

namespace Shell

open Prog Objects

/-! ## The functions -/

/-- `scancode_to_ascii`, as far as it is written out; the rest of its 128 bytes are zero. -/
def asciiTable : List UInt8 :=
  [0, 27] ++ chars ['1', '2', '3', '4', '5', '6', '7', '8', '9', '0', '-', '='] ++ [8, 9] ++
    chars ['q', 'w', 'e', 'r', 't', 'y', 'u', 'i', 'o', 'p', '[', ']'] ++ [10, 0] ++
    chars ['a', 's', 'd', 'f', 'g', 'h', 'j', 'k', 'l', ';'] ++ [39, 96, 0] ++
    chars ['\\', 'z', 'x', 'c', 'v', 'b', 'n', 'm', ',', '.', '/'] ++ [0] ++ chars ['*'] ++ [0] ++
    chars [' ', '0', '.']

/-- `scancode_to_ascii[scancode]` for a code below 256. The codes from 128 on read behind the table. -/
def scancodeToAscii (beyond : ℕ → UInt8) (scancode : UInt16) : UInt8 :=
  if scancode.toNat < 128 then asciiTable.getD scancode.toNat 0 else beyond (scancode.toNat - 128)

/-- `ascii >= 32 && ascii <= 126`. -/
def Printable (ascii : UInt8) : Prop := 32 ≤ ascii ∧ ascii ≤ 126

instance (ascii : UInt8) : Decidable (Printable ascii) := inferInstanceAs (Decidable (_ ∧ _))

/-- `is_character`. -/
def isCharacter (beyond : ℕ → UInt8) (scancode : UInt16) : Bool :=
  if 256 ≤ scancode then false
  else
    let ascii := scancodeToAscii beyond scancode
    if scancode >>> 8 = 0xE0 then false
    else Printable ascii ∨ ascii = 8 ∨ ascii = 9 ∨ ascii = 10

/-- A character is put into the buffer, or the last one is taken back: the counter then. -/
def storeCharacter (commandLine : Ptr) (ascii : UInt8) (counter : ℤ) : Code Mem ℤ :=
  if Printable ascii then do
    storeInt commandLine counter ascii
    return counter + 1
  else if ascii = 8 then do
    storeInt commandLine (counter - 1) 0
    return counter - 1
  else return counter

/-- A character: the counter then, and what is printed. -/
def readCharacter (commandLine : Ptr) (ascii : UInt8) (counter : ℤ) : Code Mem (ℤ × List UInt8) := do
  if ascii = 8 ∧ counter ≤ 0 then return (counter, [])
  else
    let counter ← storeCharacter commandLine ascii counter
    return (if 128 ≤ counter then 0 else counter, [ascii])

/-- A key: the counter then, and what is printed. -/
def readKey (beyond : ℕ → UInt8) (commandLine : Ptr) (scancode : UInt16) (counter : ℤ) :
    Code Mem (ℤ × List UInt8) :=
  if isCharacter beyond scancode then readCharacter commandLine (scancodeToAscii beyond scancode) counter
  else return (counter, [])

/-- The loop of `read_command_line`, up to the key Enter: what is printed. -/
def readLoop (beyond : ℕ → UInt8) (commandLine : Ptr) : List UInt16 → ℤ → Code Mem (List UInt8)
  | [], _ => failure
  | scancode :: keys, counter => do
    let x ← readKey beyond commandLine scancode counter
    if scancode = 0x1C then return x.2
    else return x.2 ++ (← readLoop beyond commandLine keys x.1)

/-- `read_command_line`: the buffer, and what is printed. -/
def readCommandLine (beyond : ℕ → UInt8) (keys : List UInt16) : Code Mem (Ptr × List UInt8) := do
  let commandLine ← malloc 128
  memset commandLine 0 128
  let printed ← readLoop beyond commandLine keys 0
  return (commandLine, printed)

/-! ## The text that is typed -/

/-- The characters of some keys. -/
def typed (beyond : ℕ → UInt8) (keys : List UInt16) : List UInt8 :=
  (keys.filter (isCharacter beyond)).map (scancodeToAscii beyond)

/-- What was typed: the text since the line was last full, its greatest length since, and whether the line
was ever full. -/
structure Editor where
  text : List UInt8
  peak : ℕ
  full : Bool
deriving DecidableEq

namespace Editor

/-- One character. -/
def press (e : Editor) (ascii : UInt8) : Editor :=
  if ascii = 8 then { e with text := e.text.dropLast }
  else if Printable ascii then
    if e.text.length = 127 then ⟨[], 0, true⟩
    else { e with text := e.text ++ [ascii], peak := max e.peak (e.text.length + 1) }
  else e

/-- The line when the characters `cs` have been typed. -/
def typing (cs : List UInt8) : Editor := cs.foldl press ⟨[], 0, false⟩

/-- What is printed for a character: nothing where there is nothing to take back. -/
def echo (e : Editor) (ascii : UInt8) : List UInt8 := if ascii = 8 ∧ e.text = [] then [] else [ascii]

/-- What is printed while the characters are typed. -/
def echoes : Editor → List UInt8 → List UInt8
  | _, [] => []
  | e, ascii :: cs => e.echo ascii ++ echoes (e.press ascii) cs

/-- In a line that was never full, the text has a space or leaves two bytes. In one that was full, it is
empty or has a space and is shorter than it was, or it is shorter by two. -/
def Safe (e : Editor) : Prop :=
  (e.full = false ∧ (e.text.length < 127 ∨ space ∈ e.text)) ∨
    (e.full = true ∧ e.text.length < e.peak ∧
      (e.text = [] ∨ e.text.length + 1 < e.peak ∨ space ∈ e.text))

instance (e : Editor) : Decidable e.Safe := inferInstanceAs (Decidable (_ ∨ _))

end Editor

variable {beyond : ℕ → UInt8} {m : Mem} {b : ℕ} {e : Editor} {l : List UInt8} {a : UInt8} {k : UInt16}
  {keys : List UInt16}

/-! ## The buffer -/

/-- The buffer of an editor: its text, zeros up to the greatest length it had, and behind them zeros or
the old characters of a line that was full. -/
structure Buffered (e : Editor) (l : List UInt8) : Prop where
  zero_notMem : 0 ∉ e.text
  length_le : e.text.length ≤ e.peak
  peak_lt : e.peak < 128
  split : ∃ old, l = e.text ++ (List.replicate (e.peak - e.text.length) 0 ++ old) ∧
    e.peak + old.length = 128 ∧ if e.full then 0 ∉ old else ∀ c ∈ old, c = 0

theorem buffered_empty : Buffered ⟨[], 0, false⟩ (List.replicate 128 0) :=
  ⟨List.not_mem_nil, Nat.le_refl 0, by decide, List.replicate 128 0, rfl, by simp,
    fun _ hc => List.eq_of_mem_replicate hc⟩

theorem not_printable_eight : ¬ Printable 8 := by decide

theorem Printable.ne_zero (h : Printable a) : a ≠ 0 := by
  rintro rfl
  exact absurd h (by decide)

namespace Buffered

theorem length (h : Buffered e l) : l.length = 128 := by
  obtain ⟨old, rfl, hold, -⟩ := h.split
  have := h.length_le
  simp only [List.length_append, List.length_replicate]
  omega

/-- **A character is typed.** -/
theorem type (h : Buffered e l) (ha : Printable a) : Buffered (e.press a) (l.set e.text.length a) := by
  obtain ⟨old, hl, hold, hold₀⟩ := h.split
  have hle := h.length_le
  have hlt := h.peak_lt
  have ha₈ : a ≠ 8 := fun e => not_printable_eight (e ▸ ha)
  have hset : l.set e.text.length a = e.text ++ (List.replicate (e.peak - e.text.length) 0 ++ old).set 0 a := by
    rw [hl, List.set_append_right _ _ (Nat.le_refl _), Nat.sub_self]
  have hnew : 0 ∉ e.text ++ [a] := by
    rw [List.mem_append, List.mem_singleton, not_or]
    exact ⟨h.zero_notMem, ha.ne_zero.symm⟩
  rw [hset, Editor.press, if_neg ha₈, if_pos ha]
  by_cases hp : e.text.length = e.peak
  · -- the character takes the place of an old one
    obtain ⟨c, old, rfl⟩ : ∃ c old', old = c :: old' := List.exists_cons_of_length_pos (by omega)
    rw [List.length_cons] at hold
    rw [hp, Nat.sub_self, List.replicate_zero, List.nil_append, List.set_cons_zero]
    split_ifs with hfull
    · have hnil : old = [] := List.length_eq_zero_iff.mp (by omega)
      rw [hnil]
      exact ⟨List.not_mem_nil, Nat.le_refl 0, by decide, e.text ++ [a], rfl, by simp; omega, hnew⟩
    · refine ⟨hnew, by simp [hp], by simp; omega, old, by simp [hp], by simp; omega, ?_⟩
      dsimp only
      split_ifs at hold₀ ⊢
      · exact fun hm => hold₀ (List.mem_cons_of_mem c hm)
      · exact fun d hd => hold₀ d (List.mem_cons_of_mem c hd)
  · obtain ⟨j, hj⟩ : ∃ j, e.peak - e.text.length = j + 1 := Nat.exists_eq_succ_of_ne_zero (by omega)
    rw [if_neg (by omega), hj, List.replicate_succ, List.cons_append, List.set_cons_zero]
    refine ⟨hnew, by simp, by simp; omega, old, ?_, by simp; omega, hold₀⟩
    have hzeros : max e.peak (e.text.length + 1) - (e.text ++ [a]).length = j := by
      rw [List.length_append, List.length_singleton]
      omega
    dsimp only
    rw [hzeros, List.append_assoc, List.singleton_append]

/-- **The last character is taken back.** -/
theorem delete (h : Buffered e l) (hne : e.text ≠ []) :
    Buffered (e.press 8) (l.set (e.text.length - 1) 0) := by
  obtain ⟨old, hl, hold, hold₀⟩ := h.split
  have hle := h.length_le
  have hlen := List.length_pos_iff.mpr hne
  have htext := List.dropLast_append_getLast hne
  have hset : l.set (e.text.length - 1) 0 =
      e.text.dropLast ++ 0 :: (List.replicate (e.peak - e.text.length) 0 ++ old) := by
    rw [hl]
    nth_rewrite 1 [← htext]
    rw [List.append_assoc, List.set_append_right _ _ (by simp), List.length_dropLast, Nat.sub_self]
    rfl
  rw [hset, Editor.press, if_pos rfl]
  refine ⟨fun hm => h.zero_notMem (List.dropLast_subset _ hm), ?_, h.peak_lt, old, ?_, hold, hold₀⟩
  · show e.text.dropLast.length ≤ e.peak
    rw [List.length_dropLast]
    omega
  · have hzeros : e.peak - e.text.dropLast.length = e.peak - e.text.length + 1 := by
      rw [List.length_dropLast]
      omega
    rw [hzeros, List.replicate_succ, List.cons_append]

end Buffered

/-! ## Reading -/

theorem exec_storeCharacter (h : Buffered e l) (hb : m.look b = some l) (ha : a = 8 → e.text ≠ []) :
    ∃ l' c, exec (storeCharacter (.block b) a e.text.length) m = (some c, m.put b l') ∧
      Buffered (e.press a) l' ∧ ((e.press a).text.length : ℤ) = if 128 ≤ c then 0 else c := by
  have hlen := h.length
  have hlt : e.text.length < 128 := Nat.lt_of_le_of_lt h.length_le h.peak_lt
  unfold storeCharacter
  by_cases hp : Printable a
  · have ha₈ : a ≠ 8 := fun e => not_printable_eight (e ▸ hp)
    have hstore := exec_store (v := a) hb (i := e.text.length) (by omega)
    refine ⟨_, (e.text.length : ℤ) + 1, ?_, h.type hp, ?_⟩
    · rw [if_pos hp, storeInt_natCast, exec_bind_some hstore]
      rfl
    · rw [Editor.press, if_neg ha₈, if_pos hp]
      by_cases hfull : e.text.length = 127
      · rw [if_pos hfull, if_pos (by omega)]
        rfl
      · rw [if_neg hfull, if_neg (by omega), List.length_append, List.length_singleton, Nat.cast_add,
          Nat.cast_one]
  · by_cases ha₈ : a = 8
    · have hpos := List.length_pos_iff.mpr (ha ha₈)
      have hstore := exec_store (v := 0) hb (i := e.text.length - 1) (by omega)
      have hcast : (e.text.length : ℤ) - 1 = ((e.text.length - 1 : ℕ) : ℤ) := by omega
      refine ⟨_, (e.text.length : ℤ) - 1, ?_, ha₈ ▸ h.delete (ha ha₈), ?_⟩
      · rw [if_neg hp, if_pos ha₈, hcast, storeInt_natCast, exec_bind_some hstore]
        rfl
      · rw [Editor.press, if_pos ha₈, if_neg (by omega), List.length_dropLast, hcast]
    · have hpress : e.press a = e := by
        rw [Editor.press, if_neg ha₈, if_neg hp]
      refine ⟨l, (e.text.length : ℤ), ?_, hpress.symm ▸ h, ?_⟩
      · rw [if_neg hp, if_neg ha₈, Mem.put_look hb]
        rfl
      · rw [hpress, if_neg (by omega)]

/-- **A character.** -/
theorem exec_readCharacter (h : Buffered e l) (hb : m.look b = some l) : ∃ l',
    exec (readCharacter (.block b) a e.text.length) m =
      (some (((e.press a).text.length : ℤ), e.echo a), m.put b l') ∧ Buffered (e.press a) l' := by
  by_cases ha : a = 8 ∧ e.text = []
  · -- there is nothing to take back
    have hpress : e.press a = e := by
      rw [Editor.press, if_pos ha.1, ha.2, List.dropLast_nil, ← ha.2]
    refine ⟨l, ?_, hpress.symm ▸ h⟩
    rw [readCharacter, if_pos ⟨ha.1, by simp [ha.2]⟩, hpress, Mem.put_look hb, Editor.echo, if_pos ha]
    rfl
  · obtain ⟨l', c, he, hl', hc⟩ := exec_storeCharacter (a := a) h hb fun h₈ hnil => ha ⟨h₈, hnil⟩
    have hneg : ¬ (a = 8 ∧ (e.text.length : ℤ) ≤ 0) := fun hz =>
      ha ⟨hz.1, List.length_eq_zero_iff.mp (by omega)⟩
    refine ⟨l', ?_, hl'⟩
    rw [readCharacter, if_neg hneg, exec_bind_some he, hc, Editor.echo, if_neg ha]
    rfl

theorem typed_cons : typed beyond (k :: keys) = typed beyond [k] ++ typed beyond keys := by
  unfold typed
  rw [← List.singleton_append, List.filter_append, List.map_append]

theorem Editor.echoes_append {cs cs' : List UInt8} :
    e.echoes (cs ++ cs') = e.echoes cs ++ (cs.foldl Editor.press e).echoes cs' := by
  induction cs generalizing e with
  | nil => rfl
  | cons c cs ih => rw [List.cons_append, echoes, echoes, ih, List.append_assoc, List.foldl_cons]

/-- **A key.** -/
theorem exec_readKey (beyond : ℕ → UInt8) (k : UInt16) (h : Buffered e l) (hb : m.look b = some l) : ∃ l',
    exec (readKey beyond (.block b) k e.text.length) m =
      (some ((((typed beyond [k]).foldl Editor.press e).text.length : ℤ), e.echoes (typed beyond [k])), m.put b l') ∧
      Buffered ((typed beyond [k]).foldl Editor.press e) l' := by
  unfold readKey typed
  by_cases hk : isCharacter beyond k
  · rw [if_pos hk, List.filter_cons_of_pos hk]
    obtain ⟨l', he, hl'⟩ := exec_readCharacter (a := scancodeToAscii beyond k) h hb
    refine ⟨l', ?_, hl'⟩
    rw [he]
    exact congrArg (fun printed => (some (_, printed), _)) (List.append_nil _).symm
  · rw [if_neg hk, List.filter_cons_of_neg hk]
    exact ⟨l, by rw [Mem.put_look hb]; rfl, h⟩

/-- **The keys up to Enter.** -/
theorem exec_readLoop (beyond : ℕ → UInt8) (h : Buffered e l) (hb : m.look b = some l) (hk : 0x1C ∉ keys) : ∃ l',
    exec (readLoop beyond (.block b) (keys ++ [0x1C]) e.text.length) m =
      (some (e.echoes (typed beyond keys) ++ [10]), m.put b l') ∧
      Buffered ((typed beyond keys).foldl Editor.press e) l' := by
  induction keys generalizing m e l with
  | nil =>
    -- Enter itself is a character that is printed and not kept
    obtain ⟨l', he, hl'⟩ := exec_readKey beyond 0x1C h hb
    refine ⟨l', ?_, hl'⟩
    rw [List.nil_append, readLoop, exec_bind_some he, if_pos rfl]
    rfl
  | cons k keys ih =>
    rw [List.mem_cons, not_or] at hk
    obtain ⟨l₁, he₁, hl₁⟩ := exec_readKey beyond k h hb
    obtain ⟨l₂, he₂, hl₂⟩ := ih hl₁ (Mem.look_put_self (Mem.lt_size hb)) hk.2
    have htyped : typed beyond (k :: keys) = typed beyond [k] ++ typed beyond keys := typed_cons
    refine ⟨l₂, ?_, ?_⟩
    · rw [List.cons_append, readLoop, exec_bind_some he₁, if_neg (Ne.symm hk.1), exec_bind_some he₂,
        Mem.put_put, htyped, Editor.echoes_append, List.append_assoc]
      rfl
    · rw [htyped, List.foldl_append]
      exact hl₂

/-- **`read_command_line`** leaves the buffer of what was typed, in a new block, and prints every character. -/
theorem exec_readCommandLine_echoes (beyond : ℕ → UInt8) (m : Mem) (hk : 0x1C ∉ keys) : ∃ l,
    exec (readCommandLine beyond (keys ++ [0x1C])) m =
      (some (.block m.size, Editor.echoes ⟨[], 0, false⟩ (typed beyond keys) ++ [10]), m.push l) ∧
      Buffered (.typing (typed beyond keys)) l := by
  have hset := exec_memset (v := 0) (n := 128)
    (Mem.look_push_self (m := m) (l := (List.range 128).map (m.junk m.size))) (by simp)
  rw [Mem.push_put, List.drop_eq_nil_of_le (by simp), List.append_nil] at hset
  obtain ⟨l, he, hl⟩ := exec_readLoop beyond buffered_empty Mem.look_push_self hk
  rw [Mem.push_put] at he
  refine ⟨l, ?_, hl⟩
  rw [readCommandLine, exec_bind_some (exec_malloc m 128), exec_bind_some hset]
  exact exec_bind_some he

theorem exec_readCommandLine (beyond : ℕ → UInt8) (m : Mem) (hk : 0x1C ∉ keys) : ∃ l printed,
    exec (readCommandLine beyond (keys ++ [0x1C])) m =
      (some (.block m.size, printed), m.push l) ∧ Buffered (.typing (typed beyond keys)) l := by
  obtain ⟨l, he, hl⟩ := exec_readCommandLine_echoes beyond m hk
  exact ⟨l, _, he, hl⟩

/-! ## Safe lines -/

/-- **The bytes behind the text.** A buffer has a final zero unless its line was full and the text has never
been longer; then a zero or the old characters come. -/
theorem Buffered.cases (h : Buffered e l) :
    (e.full = true ∧ e.text.length = e.peak ∧ 0 ∉ l) ∨
    ∃ r, l = e.text ++ 0 :: r ∧ (e.full = true → e.text.length < e.peak) ∧ (r.head? = some 0 ∨ 0 ∉ r) ∧
      (r.head? = some 0 ↔ e.full = false ∧ e.text.length < 127 ∨ e.full = true ∧ e.text.length + 1 < e.peak) := by
  obtain ⟨old, hl, hold, hold₀⟩ := h.split
  have hle := h.length_le
  have hlt := h.peak_lt
  cases hf : e.full with
  | false =>
    -- all the rest of the buffer is zero
    rw [hf, if_neg Bool.false_ne_true] at hold₀
    have hrest : List.replicate (e.peak - e.text.length) 0 ++ old = List.replicate (128 - e.text.length) 0 := by
      rw [List.eq_replicate_of_mem hold₀, List.replicate_append_replicate]
      congr 1
      omega
    obtain ⟨j, hj⟩ : ∃ j, 128 - e.text.length = j + 1 := Nat.exists_eq_succ_of_ne_zero (by omega)
    rw [hrest, hj, List.replicate_succ] at hl
    have hhead : (List.replicate j (0 : UInt8)).head? = some 0 ↔ e.text.length < 127 := by
      rw [List.head?_replicate]
      split_ifs <;> simp <;> omega
    refine .inr ⟨_, hl, nofun, ?_, by simpa using hhead⟩
    by_cases hz : e.text.length < 127
    · exact .inl (hhead.mpr hz)
    · have hj₀ : j = 0 := by omega
      exact .inr (by simp [hj₀])
  | true =>
    rw [hf, if_pos rfl] at hold₀
    by_cases hp : e.text.length = e.peak
    · refine .inl ⟨rfl, hp, ?_⟩
      rw [hl, hp, Nat.sub_self, List.replicate_zero, List.nil_append, List.mem_append, not_or]
      exact ⟨h.zero_notMem, hold₀⟩
    · obtain ⟨j, hj⟩ : ∃ j, e.peak - e.text.length = j + 1 := Nat.exists_eq_succ_of_ne_zero (by omega)
      rw [hj, List.replicate_succ, List.cons_append] at hl
      refine .inr ⟨_, hl, fun _ => by omega, ?_⟩
      cases j with
      | zero =>
        have hhead : old.head? ≠ some 0 := fun hz => hold₀ (List.mem_of_mem_head? hz)
        refine ⟨.inr (by simpa using hold₀), ?_⟩
        rw [List.replicate_zero, List.nil_append]
        exact iff_of_false hhead (by simp; omega)
      | succ j => exact ⟨.inl rfl, iff_of_true rfl (.inr ⟨rfl, by omega⟩)⟩

/-- **Which buffers are safe.** -/
theorem Buffered.safe_iff (h : Buffered e l) (hb : m.look b = some l) :
    (0 ∈ l ∧ (exec (parseCommandLine (.block b)) m).1.isSome) ↔ e.Safe := by
  have h₀ := h.zero_notMem
  have hlen := h.length
  have hlt : e.text.length < 128 := Nat.lt_of_le_of_lt h.length_le h.peak_lt
  unfold Editor.Safe
  rcases h.cases with ⟨hf, hp, hz⟩ | ⟨r, hl, hfull, hr, hhead⟩
  · refine iff_of_false (fun h => hz h.1) ?_
    simp [hf, hp]
  · have hmem : 0 ∈ l := by simp [hl]
    have hp : m.bytes (.block b) = some (e.text ++ 0 :: r) := hb.trans (congrArg some hl)
    rw [hl] at hlen
    have hsplit : (e.full = false) ∨ e.full = true := by cases e.full <;> simp
    by_cases hne : e.text = []
    · have hnil : (exec (parseCommandLine (.block b)) m).1.isSome := by
        rw [hne] at hp
        rw [exec_parse_nil hp]
        rfl
      refine iff_of_true ⟨hmem, hnil⟩ (hsplit.imp (fun hf => ⟨hf, .inl (by simp [hne])⟩) fun hf => ?_)
      exact ⟨hf, hfull hf, .inl hne⟩
    · by_cases hs : space ∈ e.text
      · obtain ⟨args, m', he, -⟩ := exec_parse_space hp h₀ hlt hs
        refine iff_of_true ⟨hmem, by rw [he]; rfl⟩ (hsplit.imp (fun hf => ⟨hf, .inr hs⟩) fun hf => ?_)
        exact ⟨hf, hfull hf, .inr (.inr hs)⟩
      · rw [isSome_parse_word_iff hp h₀ hlen hs hne hr, hhead]
        simp only [hmem, hs, hne, true_and, or_false, false_or]
        refine or_congr_right (and_congr_right fun _ => ?_)
        omega

/-- **Input stays in its buffer** exactly for keys that type a safe line: `read_command_line` always writes
inside its buffer, but a buffer that is full has no final zero, and behind a line without a space
`parse_command_line` goes on. Every access outside the 128 bytes stops the model. -/
theorem command_line_safe_iff (beyond : ℕ → UInt8) (keys : List UInt16) (hk : 0x1C ∉ keys) (m : Mem) :
    (∃ b printed m', exec (readCommandLine beyond (keys ++ [0x1C])) m = (some (.block b, printed), m') ∧
      (∃ l, m'.look b = some l ∧ l.length = 128 ∧ 0 ∈ l) ∧
      (exec (parseCommandLine (.block b)) m').1.isSome) ↔
      (Editor.typing (typed beyond keys)).Safe := by
  obtain ⟨l, printed, he, hl⟩ := exec_readCommandLine beyond m hk
  have hb : (m.push l).look m.size = some l := Mem.look_push_self
  rw [← hl.safe_iff hb]
  constructor
  · rintro ⟨b, printed', m', he', ⟨l', hb', -, hz⟩, hparse⟩
    rw [he] at he'
    obtain ⟨hptr, rfl⟩ := Prod.mk.inj he'
    obtain rfl : m.size = b := Ptr.block.inj (Prod.mk.inj (Option.some.inj hptr)).1
    obtain rfl : l = l' := Option.some.inj (hb.symm.trans hb')
    exact ⟨hz, hparse⟩
  · rintro ⟨hz, hparse⟩
    exact ⟨m.size, printed, m.push l, he, ⟨l, hb, hl.length, hz⟩, hparse⟩

theorem command_line_safe_ls : ∃ b printed m', exec (readCommandLine (fun _ => 7) [0x26, 0x1F, 0x1C])
      ⟨[], fun _ _ => 7⟩ = (some (.block b, printed), m') ∧
    (∃ l, m'.look b = some l ∧ l.length = 128 ∧ 0 ∈ l) ∧
    (exec (parseCommandLine (.block b)) m').1.isSome :=
  (command_line_safe_iff (fun _ => 7) [0x26, 0x1F] (by decide) ⟨[], fun _ _ => 7⟩).mpr (by decide)

/-- 128 letters and Enter leave a buffer without a zero. -/
theorem command_line_without_zero : ∃ b printed m', exec (readCommandLine (fun _ => 7)
      (List.replicate 128 0x1E ++ [0x1C])) ⟨[], fun _ _ => 7⟩ = (some (.block b, printed), m') ∧
    ∃ l, m'.look b = some l ∧ 0 ∉ l := by
  have hk : 0x1C ∉ List.replicate 128 (0x1E : UInt16) := by decide +kernel
  obtain ⟨l, printed, he, hl⟩ := exec_readCommandLine (fun _ => 7) ⟨[], fun _ _ => 7⟩ hk
  have htyped : Editor.typing (typed (fun _ => 7) (List.replicate 128 0x1E)) = ⟨[], 0, true⟩ := by
    decide +kernel
  rw [htyped] at hl
  refine ⟨_, printed, _, he, l, rfl, ?_⟩
  rcases hl.cases with ⟨-, -, hz⟩ | ⟨r, -, hfull, -⟩
  · exact hz
  · exact absurd (hfull rfl) (Nat.lt_irrefl 0)

end Shell
