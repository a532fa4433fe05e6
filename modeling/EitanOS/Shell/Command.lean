import EitanOS.Lib.Words
import EitanOS.Shell.Strings

/-!
# Command lines

`parse_command_line` selects a command and cuts the rest of the line into arguments.

* `findCommand`, `selected`: the first command whose name begins with the text of the line.
* `argSize`, `argLoop`: the arguments, in an array that grows when it is half full.
* **`exec_argLoop`**: every single space ends an argument, and the array has room for all of them.
* `exec_argLoop_none`: without a final zero the scan leaves the line.
* **`dispatch_exact_iff`**, **`arguments_exact_iff`**: for which lines the command and the arguments are the
  ones that are meant.
-/

namespace Shell

open Prog Objects Words

/-! ## The functions -/

/-- `' '`. -/
def space : UInt8 := 32

/-- `enum command`. -/
inductive Command
  | none
  | ls
  | echo
  | clear
  | cd
  | touch
  | cat
  | write
  | rm
  | man
  | find
  | mkdir
  | rmdir
  | mv
  | stat
deriving DecidableEq

/-- The characters of a name. -/
def chars (cs : List Char) : List UInt8 := cs.map Char.toUInt8

/-- The names that a line is compared with, in their order. -/
def commandNames : List (Command × List UInt8) :=
  [(.ls, chars ['l', 's']), (.echo, chars ['e', 'c', 'h', 'o']), (.clear, chars ['c', 'l', 'e', 'a', 'r']),
    (.cd, chars ['c', 'd']), (.touch, chars ['t', 'o', 'u', 'c', 'h']), (.cat, chars ['c', 'a', 't']),
    (.write, chars ['w', 'r', 'i', 't', 'e']), (.rm, chars ['r', 'm']), (.man, chars ['m', 'a', 'n']),
    (.find, chars ['f', 'i', 'n', 'd']), (.mkdir, chars ['m', 'k', 'd', 'i', 'r']),
    (.rmdir, chars ['r', 'm', 'd', 'i', 'r']), (.mv, chars ['m', 'v']), (.stat, chars ['s', 't', 'a', 't'])]

/-- The comparisons, one after the other. -/
def findCommand (commandLine : Ptr) (commandSize : ℕ) : List (Command × List UInt8) → Code Mem Command
  | [] => return .none
  | x :: names => do
    if ← strncmp commandLine (.lit x.2) commandSize then return x.1
    else findCommand commandLine commandSize names

/-- The length of the text before the first space, `none` where the line is given up. -/
def commandSize (commandLine : Ptr) : ℕ → ℕ → Code Mem (Option ℕ)
  | 0, _ => failure
  | fuel + 1, size => do
    let c ← load commandLine size
    if c ≠ space ∧ c ≠ 0 then
      if 127 < size then return none else commandSize commandLine fuel (size + 1)
    else return some size

/-- The length of the argument at `argStart`, and whether the end is reached. -/
def argSize (commandLine : Ptr) (argStart : ℕ) : ℕ → ℕ → Code Mem (ℕ × Bool)
  | 0, _ => failure
  | fuel + 1, size => do
    let c ← load commandLine (argStart + size)
    if c = space then return (size, false)
    else if c = 0 ∨ 127 < argStart + size then return (size, true)
    else argSize commandLine argStart fuel (size + 1)

/-- The array of the arguments. -/
structure Args where
  ptrs : List Ptr
  capacity : ℕ

/-- More than half of the array is used: a new one is twice as long and gets all the pointers. -/
def Args.grow (args : Args) : Args :=
  if args.capacity / 2 < args.ptrs.length then { args with capacity := args.capacity * 2 } else args

/-- `args[args_size++] = arg`. -/
def Args.append (args : Args) (arg : Ptr) : Code Mem Args :=
  if args.ptrs.length < args.capacity then return { args with ptrs := args.ptrs ++ [arg] } else failure

/-- The loop over the arguments. -/
def argLoop (commandLine : Ptr) : ℕ → ℕ → Args → Code Mem Args
  | 0, _, _ => failure
  | fuel + 1, argStart, args => do
    let x ← argSize commandLine argStart 129 0
    let arg ← substr commandLine argStart x.1
    let args ← args.grow.append arg
    if x.2 then return args else argLoop commandLine fuel (argStart + (x.1 + 1)) args

/-- The arguments from `argStart` on. -/
def parseArgs (commandLine : Ptr) (argStart : ℕ) : Code Mem Args := do
  if (← load commandLine argStart) = 0 ∨ 127 < argStart then return ⟨[], 10⟩
  else argLoop commandLine 129 argStart ⟨[], 10⟩

/-- `parse_command_line`: `none` where it returns false. In the 128 bytes of a command line no loop takes
more than 129 rounds. -/
def parseCommandLine (commandLine : Ptr) : Code Mem (Option (Command × Args)) := do
  if (← load commandLine 0) = 0 then return none
  else
    match ← commandSize commandLine 129 0 with
    | none => return none
    | some size => do
      let command ← findCommand commandLine size commandNames
      let args ← parseArgs commandLine (size + 1)
      return some (command, args)

variable {m m₀ : Mem} {p : Ptr} {n k f : ℕ} {l r s t u v w : List UInt8} {x : UInt8}
  {ps : List (ℕ × List UInt8)} {args args' : Args} {names : List (Command × List UInt8)}

/-! ## The command -/

/-- The command that a text selects. -/
def selected (names : List (Command × List UInt8)) (w : List UInt8) : Command :=
  ((names.find? fun x => w <+: x.2).map Prod.fst).getD .none

theorem exec_findCommand (hp : m.bytes p = some (w ++ l)) (hw : 0 ∉ w) (hn : ∀ x ∈ names, 0 ∉ x.2) :
    exec (findCommand p w.length names) m = (some (selected names w), m) := by
  induction names with
  | nil => rfl
  | cons x names ih =>
    rw [List.forall_mem_cons] at hn
    rw [findCommand, exec_bind_some (exec_strncmp hp hw (.lit hn.1)), selected]
    by_cases hx : w <+: x.2
    · rw [if_pos (decide_eq_true hx), List.find?_cons_of_pos (by simpa using hx)]
      rfl
    · rw [if_neg (by simpa using hx), List.find?_cons_of_neg (by simpa using hx), ih hn.2]
      rfl

theorem zero_notMem_commandNames : ∀ x ∈ commandNames, 0 ∉ x.2 := by decide

/-- Characters that do not end a word. -/
def Word (w : List UInt8) : Prop := ∀ c ∈ w, c ≠ space ∧ c ≠ 0

theorem Word.zero_notMem (h : Word w) : 0 ∉ w := fun hm => (h 0 hm).2 rfl

theorem exec_commandSize (hp : m.bytes p = some (u ++ (w ++ x :: v))) (hw : Word w)
    (hx : x = space ∨ x = 0) (hl : u.length + w.length ≤ 128) (hf : w.length < f) :
    exec (commandSize p f u.length) m = (some (some (u.length + w.length)), m) := by
  induction w generalizing u f with
  | nil =>
    obtain ⟨f, rfl⟩ := Nat.exists_eq_succ_of_ne_zero (Nat.ne_of_gt hf)
    have hload : exec (load p u.length) m = (some x, m) := exec_load hp (by simp)
    rw [commandSize, exec_bind_some hload, if_neg (by tauto)]
    rfl
  | cons c w ih =>
    obtain ⟨f, rfl⟩ := Nat.exists_eq_succ_of_ne_zero (Nat.ne_of_gt (Nat.zero_lt_of_lt hf))
    rw [Word, List.forall_mem_cons] at hw
    rw [List.length_cons] at hl hf ⊢
    have hload : exec (load p u.length) m = (some c, m) := exec_load hp (by simp)
    have h := ih (u := u ++ [c]) (f := f) (by simpa using hp) hw.2 (by simp; omega) (by omega)
    rw [List.length_append, List.length_singleton] at h
    rw [commandSize, exec_bind_some hload, if_pos hw.1, if_neg (by omega), h]
    simp only [Nat.add_assoc, Nat.add_comm 1]

/-- **The line up to its arguments.** -/
theorem exec_parseCommandLine (hp : m.bytes p = some (w ++ x :: v)) (hw : Word w) (hx : x = space ∨ x = 0)
    (hl : w.length ≤ 127) (hne : w = [] → x ≠ 0) :
    exec (parseCommandLine p) m = exec (parseArgs p (w.length + 1) >>= fun args =>
      pure (some (selected commandNames w, args))) m := by
  have hfirst : ∃ c, exec (load p 0) m = (some c, m) ∧ c ≠ 0 := by
    cases w with
    | nil => exact ⟨x, exec_load hp rfl, hne rfl⟩
    | cons c w => exact ⟨c, exec_load hp rfl, (hw c List.mem_cons_self).2⟩
  obtain ⟨c, hload, hc⟩ := hfirst
  have hsize := exec_commandSize (u := []) (f := 129) hp hw hx (by simp; omega) (by omega)
  rw [List.length_nil, Nat.zero_add] at hsize
  rw [parseCommandLine, exec_bind_some hload, if_neg hc, exec_bind_some hsize]
  exact exec_bind_some (exec_findCommand hp hw.zero_notMem zero_notMem_commandNames)

/-! ## The arguments -/

theorem exec_argSize (hp : m.bytes p = some (u ++ (w ++ x :: v))) (hw : Word w) (hx : x = space ∨ x = 0)
    (hu : u.length = n + k) (hl : u.length + w.length ≤ 128) (hf : w.length < f) :
    exec (argSize p n f k) m = (some (k + w.length, decide (x = 0)), m) := by
  induction w generalizing u f k with
  | nil =>
    obtain ⟨f, rfl⟩ := Nat.exists_eq_succ_of_ne_zero (Nat.ne_of_gt hf)
    have hload : exec (load p (n + k)) m = (some x, m) := exec_load hp (by simp [← hu])
    rw [argSize, exec_bind_some hload]
    rcases hx with rfl | rfl
    · rfl
    · rw [if_neg (by decide), if_pos (.inl rfl)]
      rfl
  | cons c w ih =>
    obtain ⟨f, rfl⟩ := Nat.exists_eq_succ_of_ne_zero (Nat.ne_of_gt (Nat.zero_lt_of_lt hf))
    rw [Word, List.forall_mem_cons] at hw
    rw [List.length_cons] at hl hf ⊢
    have hload : exec (load p (n + k)) m = (some c, m) := exec_load hp (by simp [← hu])
    have h := ih (u := u ++ [c]) (f := f) (k := k + 1) (by simpa using hp) hw.2 (by simp; omega)
      (by simp; omega) (by omega)
    rw [argSize, exec_bind_some hload, if_neg hw.1.1, if_neg (by simp [hw.1.2]; omega), h]
    simp only [Nat.add_assoc, Nat.add_comm 1]

/-- The array has room for one more argument, now or when it has grown. -/
def Args.Roomy (args : Args) : Prop := 2 ≤ args.capacity ∧ args.ptrs.length ≤ args.capacity / 2 + 1

/-- **The array is never full.** -/
theorem Args.Roomy.append (h : args.Roomy) (q : Ptr) : ∃ args', exec (args.grow.append q) m = (some args', m) ∧
    args'.ptrs = args.ptrs ++ [q] ∧ args'.Roomy := by
  obtain ⟨h₁, h₂⟩ := h
  unfold Args.grow Args.append Args.Roomy
  split_ifs with hgrow hroom hroom
  · refine ⟨_, rfl, rfl, ?_, ?_⟩
    · dsimp only
      omega
    · simp only [List.length_append, List.length_singleton]
      omega
  · dsimp only at hroom
    omega
  · refine ⟨_, rfl, rfl, h₁, ?_⟩
    simp only [List.length_append, List.length_singleton]
    omega
  · omega

theorem exec_argLoop_round (h : Parts m₀ m ps) (hp : m₀.bytes p = some (u ++ (w ++ x :: v))) (hw : Word w)
    (hx : x = space ∨ x = 0) (hl : u.length + w.length ≤ 128) (hargs : args.ptrs = pointers ps)
    (hroom : args.Roomy) : ∃ args', exec (argLoop p (f + 1) u.length args) m =
      exec (if x = 0 then pure args' else argLoop p f (u.length + (w.length + 1)) args')
        (m.push (w ++ [0])) ∧ Parts m₀ (m.push (w ++ [0])) (ps ++ [(m.size, w)]) ∧
      args'.ptrs = pointers (ps ++ [(m.size, w)]) ∧ args'.Roomy := by
  have hbytes := h.bytes_before hp
  have hne := Mem.ne_size hbytes
  have htake : ((u ++ (w ++ x :: v)).drop u.length).take w.length = w := by simp
  have hsize := exec_argSize (k := 0) (f := 129) hbytes hw hx rfl hl (by omega)
  rw [Nat.zero_add] at hsize
  have hsub := exec_substr u.length hbytes hne (n := w.length) (by simp)
    (by rw [htake]; exact hw.zero_notMem)
  rw [htake] at hsub
  obtain ⟨args', happ, hptrs, hroom'⟩ := hroom.append (m := m.push (w ++ [0])) (.block m.size)
  refine ⟨args', ?_, h.push w, ?_, hroom'⟩
  · rw [argLoop, exec_bind_some hsize, exec_bind_some hsub, exec_bind_some happ]
    simp only [decide_eq_true_eq]
  · rw [hptrs, hargs, pointers, pointers, List.map_append]
    rfl

/-- **The arguments** are the parts of the rest of the line between its spaces. -/
theorem exec_argLoop (h : Parts m₀ m ps) (hp : m₀.bytes p = some (u ++ (t ++ 0 :: r))) (ht : 0 ∉ t)
    (hl : u.length + t.length ≤ 128) (hargs : args.ptrs = pointers ps) (hroom : args.Roomy)
    (hf : t.length < f) : ∃ args' m' qs, exec (argLoop p f u.length args) m = (some args', m') ∧
      Parts m₀ m' (ps ++ qs) ∧ args'.ptrs = pointers (ps ++ qs) ∧ args'.Roomy ∧
      (∀ y ∈ qs, 0 ∉ y.2) ∧ qs.map Prod.snd = t.splitOn space := by
  induction f generalizing m ps u t args with
  | zero => omega
  | succ f ih =>
    by_cases hs : space ∈ t
    · obtain ⟨w, t', rfl, hw⟩ := List.eq_append_cons_of_mem hs
      rw [List.mem_append, List.mem_cons, not_or, not_or] at ht
      rw [List.length_append, List.length_cons] at hl hf
      have hword : Word w := fun c hc => ⟨fun e => hw (e ▸ hc), fun e => ht.1 (e ▸ hc)⟩
      rw [List.append_assoc, List.cons_append] at hp
      obtain ⟨args₁, he, hP, hptrs, hroom₁⟩ := exec_argLoop_round (f := f) h hp hword (.inl rfl)
        (by omega) hargs hroom
      have hlen : (u ++ (w ++ [space])).length = u.length + (w.length + 1) := by simp
      obtain ⟨args', m', qs, he', hP', hptrs', hroom', hqs₀, hqs⟩ := ih (u := u ++ (w ++ [space])) (t := t') hP
        (by simpa using hp) ht.2.2 (by omega) hptrs hroom₁ (by omega)
      refine ⟨args', m', (m.size, w) :: qs, ?_, by simpa using hP', by simpa using hptrs', hroom',
        List.forall_mem_cons.mpr ⟨ht.1, hqs₀⟩, ?_⟩
      · rw [he, if_neg (by decide), ← hlen, he']
      · rw [List.map_cons, hqs, List.splitOn_append_cons_self, List.splitOn_eq_singleton hw,
          List.singleton_append]
    · have hword : Word t := fun c hc => ⟨fun e => hs (e ▸ hc), fun e => ht (e ▸ hc)⟩
      obtain ⟨args₁, he, hP, hptrs, hroom₁⟩ := exec_argLoop_round (f := f) h hp hword (.inr rfl)
        hl hargs hroom
      refine ⟨args₁, _, [(m.size, t)], ?_, hP, hptrs, hroom₁, by simpa using ht, ?_⟩
      · rw [he, if_pos rfl]
        rfl
      · rw [List.splitOn_eq_singleton hs]
        rfl

theorem length_lt_of_exec_argLoop {m' : Mem} (h : exec (argLoop p f n args) m = (some args', m')) :
    args.ptrs.length < args'.ptrs.length := by
  induction f generalizing n args m with
  | zero => exact absurd (congrArg Prod.fst h) nofun
  | succ f ih =>
    obtain ⟨y, m₁, -, h⟩ := exec_bind_eq_some h
    obtain ⟨q, m₂, -, h⟩ := exec_bind_eq_some h
    obtain ⟨args₁, m₃, happ, h⟩ := exec_bind_eq_some h
    have hone : args₁.ptrs.length = args.ptrs.length + 1 := by
      have hgrow : args.grow.ptrs = args.ptrs := by
        unfold Args.grow
        split_ifs <;> rfl
      unfold Args.append at happ
      split_ifs at happ
      · rw [← Option.some.inj (congrArg Prod.fst happ), ← hgrow]
        exact List.length_append
      · exact absurd (congrArg Prod.fst happ) nofun
    split_ifs at h
    · rw [← Option.some.inj (congrArg Prod.fst h)]
      omega
    · have := ih h
      omega

/-- **The arguments of a line** that has a text `u` before them. Nothing else is left in the memory. -/
theorem exec_parseArgs (hp : m.bytes p = some (u ++ (t ++ 0 :: r))) (ht : 0 ∉ t)
    (hl : u.length + t.length ≤ 127) : ∃ args m' qs, exec (parseArgs p u.length) m = (some args, m') ∧
      args.ptrs.length ≤ args.capacity ∧ Parts m m' qs ∧ args.ptrs = pointers qs ∧ (∀ y ∈ qs, 0 ∉ y.2) ∧
      qs.map Prod.snd = if t = [] then [] else t.splitOn space := by
  cases t with
  | nil =>
    have hload : exec (load p u.length) m = (some 0, m) := exec_load hp (by simp)
    refine ⟨⟨[], 10⟩, m, [], ?_, Nat.zero_le _, .refl m, rfl, nofun, rfl⟩
    rw [parseArgs, exec_bind_some hload, if_pos (.inl rfl)]
    rfl
  | cons c t =>
    have hload : exec (load p u.length) m = (some c, m) := exec_load hp (by simp)
    have hc : ¬ (c = 0 ∨ 127 < u.length) := by
      rw [not_or]
      exact ⟨fun e => ht (e ▸ List.mem_cons_self), by omega⟩
    rw [List.length_cons] at hl
    have hroom₀ : Args.Roomy ⟨[], 10⟩ := ⟨by decide, by decide⟩
    obtain ⟨args, m', qs, he, hP, hptrs, hroom, hqs₀, hqs⟩ := exec_argLoop (f := 129) (.refl m) hp ht
      (by simp; omega) rfl hroom₀ (by simp; omega)
    rw [List.nil_append] at hP hptrs
    refine ⟨args, m', qs, ?_, ?_, hP, hptrs, hqs₀, ?_⟩
    · rw [parseArgs, exec_bind_some hload, if_neg hc]
      exact he
    · obtain ⟨h₁, h₂⟩ := hroom
      omega
    · rw [if_neg (List.cons_ne_nil c t), hqs]

/-! ## Behind the end of the line -/

theorem exec_argSize_scan (hp : m.bytes p = some l) (hl : l.length ≤ 128) (h₀ : 0 ∉ l.drop n) :
    (exec (argSize p n f k) m).1 = none ∨
      ∃ j, exec (argSize p n f k) m = (some (j, false), m) ∧ n + j < l.length := by
  induction f generalizing k with
  | zero => exact .inl rfl
  | succ f ih =>
    rw [argSize]
    by_cases hk : n + k < l.length
    · have hload : exec (load p (n + k)) m = (some l[n + k], m) :=
        exec_load hp (List.getElem?_eq_getElem hk)
      have hne : l[n + k] ≠ 0 := by
        intro e
        refine h₀ (List.mem_iff_getElem.mpr ⟨k, ?_, ?_⟩)
        · rw [List.length_drop]
          omega
        · rw [List.getElem_drop, e]
      rw [exec_bind_some hload]
      by_cases hs : l[n + k] = space
      · rw [if_pos hs]
        exact .inr ⟨k, rfl, hk⟩
      · rw [if_neg hs, if_neg (by rw [not_or]; exact ⟨hne, by omega⟩)]
        exact ih
    · rw [exec_bind_none (exec_load_none hp (by omega))]
      exact .inl rfl

/-- **Without a final zero** the scan leaves the block. -/
theorem exec_argLoop_none (hp : m.bytes p = some l) (hl : l.length ≤ 128) (h₀ : 0 ∉ l.drop n) :
    (exec (argLoop p f n args) m).1 = none := by
  induction f generalizing m n args with
  | zero => rfl
  | succ f ih =>
    rw [argLoop]
    rcases exec_argSize_scan (f := 129) (k := 0) hp hl h₀ with hnone | ⟨j, hj, hlt⟩
    · rw [exec_bind_none (Prod.ext hnone rfl)]
    · have hne := Mem.ne_size hp
      have hsub := exec_substr n hp hne (n := j) (by omega) fun hm => h₀ (List.mem_of_mem_take hm)
      have hdrop : 0 ∉ l.drop (n + (j + 1)) := by
        rw [← List.drop_drop]
        exact fun hm => h₀ (List.mem_of_mem_drop hm)
      rw [exec_bind_some hj, exec_bind_some hsub, Args.append]
      by_cases hroom : args.grow.ptrs.length < args.grow.capacity
      · rw [if_pos hroom, pure_bind]
        exact ih ((Mem.bytes_push hne).trans hp) hdrop
      · rw [if_neg hroom, exec_bind_none (exec_failure _)]

/-! ## Whole lines -/

/-- The text that is compared with the names of the commands. -/
def commandText (s : List UInt8) : List UInt8 := s.takeWhile (· ≠ space)

/-- What comes behind the first space. -/
def argsText (s : List UInt8) : List UInt8 := (s.dropWhile (· ≠ space)).tail

theorem eq_commandText_append (h : space ∈ s) : s = commandText s ++ space :: argsText s := by
  obtain ⟨w, t, rfl, hw⟩ := List.eq_append_cons_of_mem h
  have hpos : ∀ c ∈ w, decide (c ≠ space) = true := fun c hc => by simpa using fun e : c = space => hw (e ▸ hc)
  have htext : commandText (w ++ space :: t) = w := by
    rw [commandText, List.takeWhile_append_of_pos hpos]
    simp
  have hargs : argsText (w ++ space :: t) = t := by
    rw [argsText, List.dropWhile_append_of_pos hpos]
    simp
  rw [htext, hargs]

theorem commandText_of_notMem (h : space ∉ s) : commandText s = s :=
  List.takeWhile_eq_self_iff.mpr fun c hc => by simpa using fun e : c = space => h (e ▸ hc)

theorem word_commandText (h₀ : 0 ∉ s) : Word (commandText s) := fun c hc =>
  ⟨by simpa using List.mem_takeWhile_imp hc, fun e => h₀ (e ▸ ( List.takeWhile_prefix _).subset hc)⟩

theorem exec_parse_nil (hp : m.bytes p = some (0 :: r)) : exec (parseCommandLine p) m = (some none, m) := by
  have hload : exec (load p 0) m = (some 0, m) := exec_load hp rfl
  rw [parseCommandLine, exec_bind_some hload, if_pos rfl]
  rfl

/-- **A line with a space.** Nothing is left in the memory but the arguments. -/
theorem exec_parse_parts (hp : m.bytes p = some (s ++ 0 :: r)) (h₀ : 0 ∉ s) (hl : s.length < 128)
    (hs : space ∈ s) : ∃ args m' qs, exec (parseCommandLine p) m =
        (some (some (selected commandNames (commandText s), args)), m') ∧ args.ptrs.length ≤ args.capacity ∧
      Parts m m' qs ∧ args.ptrs = pointers qs ∧ (∀ y ∈ qs, 0 ∉ y.2) ∧
      qs.map Prod.snd = if argsText s = [] then [] else (argsText s).splitOn space := by
  have hsplit := eq_commandText_append hs
  have hword := word_commandText h₀
  generalize commandText s = w at hsplit hword ⊢
  generalize argsText s = t at hsplit ⊢
  rw [hsplit, List.length_append, List.length_cons] at hl
  rw [hsplit, List.mem_append, List.mem_cons, not_or, not_or] at h₀
  rw [hsplit, List.append_assoc, List.cons_append] at hp
  have hcut := exec_parseCommandLine hp hword (.inl rfl) (by omega) fun _ => by decide
  obtain ⟨args, m', qs, he, hargs⟩ := exec_parseArgs (u := w ++ [space]) (by simpa using hp) h₀.2.2
    (by simp; omega)
  rw [List.length_append, List.length_singleton] at he
  refine ⟨args, m', qs, ?_, hargs⟩
  rw [hcut, exec_bind_some he]
  rfl

theorem exec_parse_space (hp : m.bytes p = some (s ++ 0 :: r)) (h₀ : 0 ∉ s) (hl : s.length < 128)
    (hs : space ∈ s) : ∃ args m', exec (parseCommandLine p) m =
        (some (some (selected commandNames (commandText s), args)), m') ∧ args.ptrs.length ≤ args.capacity ∧
      List.Forall₂ (Str m') args.ptrs (if argsText s = [] then [] else (argsText s).splitOn space) := by
  obtain ⟨args, m', qs, he, hcap, hP, hptrs, hqs₀, hqs⟩ := exec_parse_parts hp h₀ hl hs
  refine ⟨args, m', he, hcap, ?_⟩
  rw [hptrs, ← hqs]
  exact hP.forall₂_str hqs₀

/-- **A line without a space**: the byte behind its final zero is read. -/
theorem exec_parse_word (hp : m.bytes p = some (s ++ 0 :: r)) (h₀ : 0 ∉ s) (hl : s.length < 128)
    (hs : space ∉ s) (hne : s ≠ []) : exec (parseCommandLine p) m = exec (parseArgs p (s.length + 1) >>=
      fun args => pure (some (selected commandNames (commandText s), args))) m := by
  have hword := word_commandText h₀
  rw [commandText_of_notMem hs] at hword ⊢
  exact exec_parseCommandLine hp hword (.inr rfl) (by omega) fun e => absurd e hne

theorem exec_parse_word_nil (hp : m.bytes p = some (s ++ [0])) (h₀ : 0 ∉ s) (hl : s.length < 128)
    (hs : space ∉ s) (hne : s ≠ []) : (exec (parseCommandLine p) m).1 = none := by
  have hload : exec (load p (s.length + 1)) m = (none, m) := exec_load_none hp (by simp)
  rw [exec_parse_word hp h₀ hl hs hne, parseArgs, bind_assoc, exec_bind_none hload]

theorem exec_parse_word_zero {y : UInt8} (hp : m.bytes p = some (s ++ 0 :: y :: r)) (h₀ : 0 ∉ s)
    (hl : s.length < 128) (hs : space ∉ s) (hne : s ≠ []) (hy : y = 0 ∨ s.length = 127) :
    exec (parseCommandLine p) m = (some (some (selected commandNames (commandText s), ⟨[], 10⟩)), m) := by
  have hload : exec (load p (s.length + 1)) m = (some y, m) := exec_load hp (by simp)
  rw [exec_parse_word hp h₀ hl hs hne, parseArgs, bind_assoc, exec_bind_some hload,
    if_pos (hy.imp_right (by omega))]
  rfl

theorem exec_parse_word_stale {y : UInt8} (hp : m.bytes p = some (s ++ 0 :: y :: r)) (h₀ : 0 ∉ s)
    (hl : s.length < 127) (hs : space ∉ s) (hne : s ≠ []) (hy : y ≠ 0) :
    exec (parseCommandLine p) m = exec (argLoop p 129 (s.length + 1) ⟨[], 10⟩ >>= fun args =>
      pure (some (selected commandNames (commandText s), args))) m := by
  have hload : exec (load p (s.length + 1)) m = (some y, m) := exec_load hp (by simp)
  have hend : ¬ (y = 0 ∨ 127 < s.length + 1) := by
    rw [not_or]
    exact ⟨hy, by omega⟩
  rw [exec_parse_word hp h₀ (by omega) hs hne, parseArgs, bind_assoc, exec_bind_some hload, if_neg hend]

/-- **In a block of 128 bytes**, a line without a space is scanned over its end unless a zero comes behind
its own. -/
theorem isSome_parse_word_iff (hp : m.bytes p = some (s ++ 0 :: r)) (h₀ : 0 ∉ s)
    (hl : (s ++ 0 :: r).length = 128) (hs : space ∉ s) (hne : s ≠ []) (hr : r.head? = some 0 ∨ 0 ∉ r) :
    (exec (parseCommandLine p) m).1.isSome ↔ r.head? = some 0 := by
  have hlen : s.length + (r.length + 1) = 128 := by
    rw [List.length_append, List.length_cons] at hl
    exact hl
  cases r with
  | nil =>
    rw [exec_parse_word_nil hp h₀ (by omega) hs hne]
    simp
  | cons y r =>
    rw [List.length_cons] at hlen
    by_cases hy : y = 0
    · rw [exec_parse_word_zero hp h₀ (by omega) hs hne (.inl hy), hy]
      simp
    · have hr₀ : 0 ∉ y :: r := hr.resolve_left fun e => hy (Option.some.inj e)
      have hdrop : 0 ∉ (s ++ 0 :: y :: r).drop (s.length + 1) := by
        rw [List.drop_append, List.drop_eq_nil_of_le (by omega), Nat.add_sub_cancel_left]
        exact hr₀
      have hnone : (exec (argLoop p 129 (s.length + 1) ⟨[], 10⟩) m).1 = none :=
        exec_argLoop_none hp hl.le hdrop
      rw [exec_parse_word_stale hp h₀ (by omega) hs hne hy, exec_bind_none (Prod.ext hnone rfl)]
      simp [hy]

theorem command_of_exec {c : Command} {m' : Mem} (hp : Str m p s) (hl : s.length < 128)
    (h : exec (parseCommandLine p) m = (some (some (c, args)), m')) :
    c = selected commandNames (commandText s) := by
  obtain ⟨h₀, r, e⟩ := hp
  by_cases hs : space ∈ s
  · obtain ⟨args₁, m₁, he, -⟩ := exec_parse_space e h₀ hl hs
    rw [he] at h
    exact (Prod.mk.inj (Option.some.inj (Option.some.inj (Prod.mk.inj h).1))).1.symm
  · by_cases hne : s = []
    · rw [hne] at e
      rw [exec_parse_nil e] at h
      exact absurd (Option.some.inj (Prod.mk.inj h).1) nofun
    · rw [exec_parse_word e h₀ hl hs hne] at h
      obtain ⟨args₁, m₁, -, h⟩ := exec_bind_eq_some h
      exact (Prod.mk.inj (Option.some.inj (Option.some.inj (Prod.mk.inj h).1))).1.symm

theorem selected_name : ∀ y ∈ commandNames, selected commandNames y.2 = y.1 := by decide

theorem selected_ne_none (h : ∃ y ∈ commandNames, w <+: y.2) : selected commandNames w ≠ .none := by
  obtain ⟨y, hy, hw⟩ := h
  have hfind : (commandNames.find? fun x => w <+: x.2).isSome := by
    rw [List.find?_isSome]
    exact ⟨y, hy, by simpa using hw⟩
  obtain ⟨z, hz⟩ := Option.isSome_iff_exists.mp hfind
  have hnone : ∀ z ∈ commandNames, z.1 ≠ .none := by decide
  rw [selected, hz]
  exact hnone z (List.mem_of_find?_eq_some hz)

theorem selected_none (h : ∀ y ∈ commandNames, ¬ w <+: y.2) : selected commandNames w = .none := by
  have hfind : (commandNames.find? fun x => w <+: x.2) = none :=
    List.find?_eq_none.mpr fun y hy => by simpa using h y hy
  rw [selected, hfind]
  rfl

/-- **Dispatch is exact** for a line exactly when the text before its first space is the name of a command
or the beginning of no name: the comparison has the length of the text, not that of the name. -/
theorem dispatch_exact_iff (m : Mem) (p : Ptr) (s : List UInt8) (hp : Str m p s) (hl : s.length < 128)
    (c : Command) (args : Args) (m' : Mem)
    (h : exec (parseCommandLine p) m = (some (some (c, args)), m')) :
    ((∀ y ∈ commandNames, c = y.1 ↔ commandText s = y.2) ∧
      ((∀ y ∈ commandNames, commandText s ≠ y.2) → c = .none)) ↔
      (∃ y ∈ commandNames, commandText s = y.2) ∨ ∀ y ∈ commandNames, ¬ commandText s <+: y.2 := by
  rw [command_of_exec hp hl h]
  generalize commandText s = w
  constructor
  · rintro ⟨-, hnone⟩
    by_cases hname : ∃ y ∈ commandNames, w = y.2
    · exact .inl hname
    · refine .inr fun y hy hw => selected_ne_none ⟨y, hy, hw⟩ (hnone fun z hz e => hname ⟨z, hz, e⟩)
  · rintro (⟨y, hy, rfl⟩ | hnone)
    · have hinj : ∀ y ∈ commandNames, ∀ z ∈ commandNames, y.1 = z.1 ↔ y.2 = z.2 := by decide
      rw [selected_name y hy]
      exact ⟨hinj y hy, fun hne => absurd rfl (hne y hy)⟩
    · have hcmd : ∀ y ∈ commandNames, Command.none ≠ y.1 := by decide
      rw [selected_none hnone]
      exact ⟨fun y hy => iff_of_false (hcmd y hy) fun e => hnone y hy (e ▸ List.prefix_rfl), fun _ => rfl⟩

theorem dispatch_exact_cd : ∃ args m', exec (parseCommandLine (.block 0))
      ⟨[some [99, 100, 32, 97, 0]], fun _ _ => 7⟩ = (some (some (.cd, args)), m') ∧
    ∀ y ∈ commandNames, Command.cd = y.1 ↔ commandText [99, 100, 32, 97] = y.2 := by
  have hp : Mem.bytes ⟨[some [99, 100, 32, 97, 0]], fun _ _ => 7⟩ (.block 0) =
    some ([99, 100, 32, 97] ++ 0 :: []) := rfl
  obtain ⟨args, m', he, -⟩ := exec_parse_space hp (by decide) (by decide) (by decide)
  exact ⟨args, m', he, ((dispatch_exact_iff _ _ _ ⟨by decide, [], hp⟩ (by decide) _ args m' he).mpr
    (by decide)).1⟩

/-- The line `l` is taken for `ls`. -/
theorem dispatch_beginning_of_name : exec (parseCommandLine (.block 0)) ⟨[some [108, 0, 0]], fun _ _ => 7⟩ =
      (some (some (.ls, ⟨[], 10⟩)), ⟨[some [108, 0, 0]], fun _ _ => 7⟩) ∧
    ∀ y ∈ commandNames, commandText [108] ≠ y.2 :=
  ⟨rfl, by decide⟩

theorem splitOn_eq_tail_words_iff (hw : space ∉ w) :
    t.splitOn space = (words space (w ++ space :: t)).tail ↔ w ≠ [] ∧ [] ∉ t.splitOn space := by
  rw [words_append_cons]
  by_cases hne : w = []
  · -- the first word is one of the parts
    have hlen : (words space t).tail.length < (t.splitOn space).length := by
      have hpos : 0 < (t.splitOn space).length := List.length_pos_iff.mpr (List.splitOn_ne_nil _ _)
      have hle : (words space t).length ≤ (t.splitOn space).length := List.length_filter_le _ _
      rw [List.length_tail]
      omega
    rw [hne, words_nil, List.nil_append]
    exact iff_of_false (fun e => absurd (congrArg List.length e) (Nat.ne_of_gt hlen)) fun h => h.1 rfl
  · rw [words_of_notMem hw hne, List.singleton_append, List.tail_cons, eq_comm, words_eq_splitOn_iff]
    exact ⟨fun h => ⟨hne, h⟩, And.right⟩

theorem space_notMem_commandText : space ∉ commandText s := fun h => by
  simpa using List.mem_takeWhile_imp h

theorem tail_words_iff (hs : space ∈ s) :
    (if argsText s = [] then [] else (argsText s).splitOn space) = (words space s).tail ↔
      argsText s = [] ∨ commandText s ≠ [] ∧ [] ∉ (argsText s).splitOn space := by
  have hsplit := eq_commandText_append hs
  have hw : space ∉ commandText s := space_notMem_commandText
  generalize commandText s = w at hsplit hw ⊢
  generalize argsText s = t at hsplit ⊢
  rw [hsplit]
  by_cases ht : t = []
  · rw [if_pos ht, ht, words_append_cons, words_nil, List.append_nil]
    refine iff_of_true ?_ (.inl rfl)
    by_cases hne : w = []
    · rw [hne]
      rfl
    · rw [words_of_notMem hw hne]
      rfl
  · rw [if_neg ht, splitOn_eq_tail_words_iff hw]
    exact ⟨.inr, fun h => h.resolve_left ht⟩

/-- What is asked of the arguments: the words of the line behind its first, in an array with room. -/
def ArgsExact (m : Mem) (p : Ptr) (s : List UInt8) : Prop :=
  ∃ a m', exec (parseCommandLine p) m = (some a, m') ∧ ∀ c args, a = some (c, args) →
    args.ptrs.length ≤ args.capacity ∧ List.Forall₂ (Str m') args.ptrs (words space s).tail

theorem argsExact_space_iff (hp : m.bytes p = some (s ++ 0 :: r)) (h₀ : 0 ∉ s) (hl : s.length < 128)
    (hs : space ∈ s) :
    ArgsExact m p s ↔ argsText s = [] ∨ commandText s ≠ [] ∧ [] ∉ (argsText s).splitOn space := by
  obtain ⟨args, m', he, hcap, hstr⟩ := exec_parse_space hp h₀ hl hs
  rw [← tail_words_iff hs]
  constructor
  · rintro ⟨a, m'', he', h⟩
    rw [he] at he'
    obtain ⟨rfl, rfl⟩ : some (selected commandNames (commandText s), args) = a ∧ m' = m'' := by
      simpa using he'
    exact Str.forall₂_unique hstr (h _ _ rfl).2
  · intro e
    refine ⟨_, m', he, fun c args' hc => ?_⟩
    obtain ⟨-, rfl⟩ := Prod.mk.inj (Option.some.inj hc)
    exact ⟨hcap, e ▸ hstr⟩

theorem argsExact_word_iff (hp : m.bytes p = some (s ++ 0 :: r)) (h₀ : 0 ∉ s) (hl : s.length < 128)
    (hs : space ∉ s) (hne : s ≠ []) : ArgsExact m p s ↔ r.head? = some 0 ∨ s.length = 127 ∧ r ≠ [] := by
  rw [ArgsExact, words_of_notMem hs hne, List.tail_cons]
  cases r with
  | nil =>
    refine iff_of_false ?_ (by simp)
    rintro ⟨a, m', he, -⟩
    have hnone := exec_parse_word_nil hp h₀ hl hs hne
    rw [he] at hnone
    exact absurd hnone nofun
  | cons y r =>
    rw [List.head?_cons]
    by_cases hy : y = 0 ∨ s.length = 127
    · refine iff_of_true ⟨_, m, exec_parse_word_zero hp h₀ hl hs hne hy, fun c args hc => ?_⟩ ?_
      · obtain ⟨-, rfl⟩ := Prod.mk.inj (Option.some.inj hc)
        exact ⟨Nat.zero_le _, .nil⟩
      · exact hy.imp (congrArg some) fun h => ⟨h, List.cons_ne_nil y r⟩
    · refine iff_of_false ?_ fun h => hy (h.imp Option.some.inj And.left)
      rintro ⟨a, m', he, h⟩
      rw [not_or] at hy
      rw [exec_parse_word_stale hp h₀ (by omega) hs hne hy.1] at he
      obtain ⟨args, m₁, hloop, hret⟩ := exec_bind_eq_some he
      have hsome : a = some (selected commandNames (commandText s), args) :=
        (Option.some.inj (congrArg Prod.fst hret)).symm
      have hnil : args.ptrs = [] := List.forall₂_nil_right_iff.mp (h _ _ hsome).2
      have hlt := length_lt_of_exec_argLoop hloop
      rw [hnil] at hlt
      exact absurd hlt (Nat.lt_irrefl 0)

/-- **The arguments are the words behind the first** exactly for a line that
* is empty;
* has no space, while the byte behind its final zero, which is read, is there and is zero or byte 128;
* ends with its first space; or
* begins with a word and has single spaces only, each between two words.

The array of the arguments always has room. -/
theorem arguments_exact_iff (m : Mem) (p : Ptr) (s r : List UInt8) (h₀ : 0 ∉ s)
    (hp : m.bytes p = some (s ++ 0 :: r)) (hl : s.length < 128) :
    ArgsExact m p s ↔ s = [] ∨ (space ∉ s ∧ (r.head? = some 0 ∨ s.length = 127 ∧ r ≠ [])) ∨
      (space ∈ s ∧ (argsText s = [] ∨ commandText s ≠ [] ∧ [] ∉ (argsText s).splitOn space)) := by
  by_cases hne : s = []
  · subst hne
    exact iff_of_true ⟨none, m, exec_parse_nil hp, nofun⟩ (.inl rfl)
  · by_cases hs : space ∈ s
    · rw [argsExact_space_iff hp h₀ hl hs]
      tauto
    · rw [argsExact_word_iff hp h₀ hl hs hne]
      tauto

theorem arguments_exact_mv :
    ArgsExact ⟨[some [109, 118, 32, 97, 32, 98, 0]], fun _ _ => 7⟩ (.block 0) [109, 118, 32, 97, 32, 98] :=
  (arguments_exact_iff _ _ _ [] (by decide) rfl (by decide)).mpr (by decide)

/-- `ls  a` has an empty first argument. -/
theorem arguments_empty_part :
    ¬ ArgsExact ⟨[some [108, 115, 32, 32, 97, 0]], fun _ _ => 7⟩ (.block 0) [108, 115, 32, 32, 97] := by
  rw [argsExact_space_iff (r := []) rfl (by decide) (by decide) (by decide)]
  decide

end Shell
