import EitanOS.Lib.Addresses
import EitanOS.Lib.Words
import EitanOS.Memory.Allocator
import EitanOS.Shell.Strings

/-!
# String functions of the kernel (`util/string.c`)

`strlen` is `-1` past 1001 characters, and the functions that call it go on with that. `malloc` is taken to
find a block, but it returns null when it is asked for no bytes.

* **`exec_strlen`**, **`exec_strcmp`**: what they return for strings of any length.
* `exec_strdup`, `exec_strConcat`, `exec_copyOf`: a new block with a string, and nothing else changes.
* `exec_strrchr`: the last place of a character.
* **`exec_strSplit`**: the tokens of a string are its words, each in a block of its own.
-/

namespace Util

open Prog Objects Words
open Shell (toSize toSize_natCast)

/-! ## The functions -/

/-- The bytes of a block for `size` bytes that can be used. `malloc_internal` adds the header to the size
in 64 bits. -/
def usable (size : ℕ) : ℕ := min size (EitanOS.alignUp ((size + 16) % 2 ^ 64) - 16)

/-- `malloc` and `malloc_kernel`, when there is memory. -/
def malloc (size : ℕ) : Code Mem Addr :=
  if size = 0 then return .null
  else do
    let p ← Objects.malloc (usable size)
    return .into p 0

/-- `memcpy`. -/
def memcpy (dest src : Addr) (size : ℕ) : Code Mem PUnit :=
  (List.range size).forM fun i => do dest.store i (← src.load i)

/-- The loop of `strlen` from `count` on, for at most `fuel` rounds. -/
def strlenLoop (str : Addr) : ℕ → ℕ → Code Mem ℤ
  | 0, _ => failure
  | fuel + 1, count => do
    if (← str.load count) = 0 then return count
    else if 1000 < count then return -1
    else strlenLoop str fuel (count + 1)

/-- `strlen`: the loop ends after 1002 rounds at the latest. -/
def strlen (str : Addr) : Code Mem ℤ := strlenLoop str 1002 0

/-- The loop of `strcmp` from `i` on. -/
def strcmpLoop (s₁ s₂ : Addr) : ℕ → ℕ → Code Mem Bool
  | 0, _ => return true
  | k + 1, i => do
    if (← s₁.load i) ≠ (← s₂.load i) then return false
    else strcmpLoop s₁ s₂ k (i + 1)

/-- `strcmp`: 1 when the strings are equal. -/
def strcmp (s₁ s₂ : Addr) : Code Mem Bool := do
  let len ← strlen s₁
  if len ≠ (← strlen s₂) then return false
  else strcmpLoop s₁ s₂ len.toNat 0

/-- `strdup`. -/
def strdup (str : Addr) : Code Mem Addr := do
  let result ← malloc (toSize ((← strlen str) + 1))
  memcpy result str (toSize ((← strlen str) + 1))
  return result

/-- `str_concat`. -/
def strConcat (s₁ s₂ : Addr) : Code Mem Addr := do
  let len₁ ← strlen s₁
  let len₂ ← strlen s₂
  let result ← malloc (toSize (len₁ + len₂ + 1))
  if result = .null then return .null
  else do
    (List.range len₁.toNat).forM fun i => do result.store i (← s₁.load i)
    (List.range len₂.toNat).forM fun i => do result.store (len₁ + i) (← s₂.load i)
    result.store (len₁ + len₂) 0
    return result

/-- The loop of `strrchr` from `s + i` on. -/
def strrchrLoop (s : Addr) (c : UInt8) : ℕ → ℕ → Addr → Code Mem Addr
  | 0, _, _ => failure
  | fuel + 1, i, last => do
    let x ← s.load i
    if x = 0 then return last
    else strrchrLoop s c fuel (i + 1) (if x = c then s.add i else last)

/-- `strrchr`. -/
def strrchr (s : Addr) (c : UInt8) : Code Mem Addr := do
  strrchrLoop s c (← s.rounds) 0 .null

/-- `malloc(len + 1)`, `memcpy` and the final zero: how `str_split` makes a token, and how the run system
call copies its path. -/
def copyOf (src : Addr) (len : ℕ) : Code Mem Addr := do
  let result ← malloc ((len + 1) % 2 ^ 64)
  memcpy result src len
  result.store len 0
  return result

/-- `while (*p == delim) p++`, from `str + i` on. -/
def skipDelims (str : Addr) (delim : UInt8) : ℕ → ℕ → Code Mem ℕ
  | 0, _ => failure
  | fuel + 1, i => do
    if (← str.load i) = delim then skipDelims str delim fuel (i + 1) else return i

/-- `while (*p && *p != delim) p++`, from `str + i` on. -/
def endOfToken (str : Addr) (delim : UInt8) : ℕ → ℕ → Code Mem ℕ
  | 0, _ => failure
  | fuel + 1, i => do
    let c ← str.load i
    if c ≠ 0 ∧ c ≠ delim then endOfToken str delim fuel (i + 1) else return i

/-- How both loops of `str_split` begin a round: where the next token starts and ends, if there is one. -/
def nextToken (str : Addr) (delim : UInt8) (fuel i : ℕ) : Code Mem (Option (ℕ × ℕ)) := do
  if (← str.load i) = 0 then return none
  else do
    let start ← skipDelims str delim fuel i
    if (← str.load start) = 0 then return none
    else do
      let stop ← endOfToken str delim fuel start
      return some (start, stop)

/-- The first loop of `str_split`. -/
def countTokens (str : Addr) (delim : UInt8) : ℕ → ℕ → ℕ → Code Mem ℕ
  | 0, _, _ => failure
  | fuel + 1, i, count => do
    match ← nextToken str delim (fuel + 1) i with
    | none => return count
    | some (_, stop) => countTokens str delim fuel stop (count + 1)

/-- The second loop of `str_split`. There is room for `count` pointers. -/
def fillTokens (str : Addr) (delim : UInt8) (count : ℕ) : ℕ → ℕ → List Addr → Code Mem (List Addr)
  | 0, _, _ => failure
  | fuel + 1, i, tokens => do
    match ← nextToken str delim (fuel + 1) i with
    | none => return tokens
    | some (start, stop) =>
      if tokens.length < count then do
        let token ← copyOf (str.add start) (stop - start)
        fillTokens str delim count fuel stop (tokens ++ [token])
      else failure

/-- `str_split`: the array it returns, and `*out_count`. -/
def strSplit (str : Addr) (delim : UInt8) : Code Mem (List Addr × ℕ) := do
  let fuel ← str.rounds
  let count ← countTokens str delim fuel 0 0
  let tokens ← fillTokens str delim count fuel 0 []
  return (tokens, count)

variable {m m₀ : Mem} {a b dest src : Addr} {c i j n fuel : ℕ} {delim x : UInt8} {l s t w : List UInt8}
  {ps : List (ℕ × List UInt8)}

/-! ## Blocks and copies -/

theorem usable_eq (h : n ≤ 2 ^ 64 - 24) : usable n = n := by
  unfold usable EitanOS.alignUp
  omega

/-- What was in a new block. -/
def fresh (m : Mem) (n : ℕ) : List UInt8 := (List.range n).map (m.junk m.size)

@[simp] theorem length_fresh : (fresh m n).length = n := by
  simp [fresh]

theorem exec_malloc (h₀ : 0 < n) (h : n ≤ 2 ^ 64 - 24) :
    exec (malloc n) m = (some (.into (.block m.size) 0), m.push (fresh m n)) := by
  rw [malloc, if_neg (by omega), usable_eq h]
  rfl

theorem exec_memcpy (hb : m.look c = some l) (hs : src.view m = some s) (hne : src.base ≠ some (.block c))
    (hl : n ≤ l.length) (hn : n ≤ s.length) :
    exec (memcpy (.into (.block c) 0) src n) m = (some ⟨⟩, m.put c (s.take n ++ l.drop n)) := by
  have hw : (s.take n).length = n := List.length_take_of_le hn
  have h := exec_forM_store src.load (s.take n) 0 hb (fun i hi l' => ?_) (by omega)
  · simp only [hw, Nat.zero_add, List.take_zero, List.nil_append] at h
    simp only [memcpy, Addr.store_natCast, Nat.zero_add]
    exact h
  · refine Addr.exec_load (Addr.view_put hs (Mem.lt_size hb) hne) ?_
    rw [List.getElem?_eq_getElem (by omega), List.getElem_take]

theorem exec_memcpy_null (hs : src.view m = some (x :: s)) (hn : 0 < n) :
    exec (memcpy .null src n) m = (none, m) := by
  refine exec_forM_range_none (g := fun _ => m) (k := 0) (fun i hi => absurd hi (Nat.not_lt_zero i)) hn ?_
  rw [exec_bind_some (Addr.exec_load hs rfl)]
  rfl

/-- **A new block with a copy of some bytes**, as a string. -/
theorem exec_copyOf (hs : src.view m = some s) (hn : n ≤ s.length) (h : n ≤ 2 ^ 64 - 25) :
    exec (copyOf src n) m = (some (.into (.block m.size) 0), m.push (s.take n ++ [0])) := by
  have hmod : (n + 1) % 2 ^ 64 = n + 1 := Nat.mod_eq_of_lt (by omega)
  rw [copyOf, hmod, exec_bind_some (exec_malloc (by omega) (by omega)),
    exec_bind_some (exec_memcpy Mem.look_push_self (Addr.view_push hs) (Addr.base_ne_size hs) (by simp) hn),
    Mem.push_put, Addr.store_natCast, Nat.zero_add, exec_bind_some (exec_store Mem.look_push_self
      (by simp [hn])), Mem.push_put]
  rw [set_length_append_drop (List.length_take_of_le hn) length_fresh]
  rfl

/-! ## Lengths and comparisons -/

/-- What `strlen` returns for a string. -/
def lengthOrError (s : List UInt8) : ℤ := if s.length ≤ 1001 then s.length else -1

theorem exec_strlenLoop (h : Text m a s) (hi : i ≤ s.length) (hi' : i ≤ 1001) (hf : 1001 - i < fuel) :
    exec (strlenLoop a fuel i) m = (some (lengthOrError s), m) := by
  induction fuel generalizing i with
  | zero => omega
  | succ fuel ih =>
    rw [strlenLoop, lengthOrError]
    rcases Nat.lt_or_eq_of_le hi with hlt | rfl
    · rw [exec_bind_some (h.load hlt), if_neg (h.getElem_ne hlt)]
      by_cases hc : 1000 < i
      · rw [if_pos hc, if_neg (by omega)]
        rfl
      · rw [if_neg hc]
        exact ih hlt (by omega) (by omega)
    · rw [exec_bind_some h.load_zero, if_pos rfl, if_pos hi']
      rfl

/-- **`strlen` of any string.** -/
theorem exec_strlen (h : Text m a s) : exec (strlen a) m = (some (lengthOrError s), m) :=
  exec_strlenLoop h (Nat.zero_le _) (by omega) (by omega)

theorem exec_strcmpLoop (ha : Text m a s) (hb : Text m b t) (hs : s.length = i + n) (ht : t.length = i + n) :
    exec (strcmpLoop a b n i) m = (some (decide (s.drop i = t.drop i)), m) := by
  induction n generalizing i with
  | zero => simp [strcmpLoop, List.drop_eq_nil_of_le, hs, ht]
  | succ n ih =>
    have his : i < s.length := by omega
    have hit : i < t.length := by omega
    rw [strcmpLoop, exec_bind_some (ha.load his), exec_bind_some (hb.load hit)]
    simp only [drop_eq_drop_iff his hit]
    by_cases h : s[i] = t[i]
    · rw [if_neg (not_not.mpr h), ih (by omega) (by omega)]
      simp only [h, true_and]
    · rw [if_pos h, decide_eq_false (not_and_of_not_left _ h)]
      rfl

/-- **`strcmp` of any two strings**: two that are too long are taken to be equal. -/
theorem exec_strcmp (ha : Text m a s) (hb : Text m b t) :
    exec (strcmp a b) m = (some (decide (s = t ∨ 1001 < s.length ∧ 1001 < t.length)), m) := by
  rw [strcmp, exec_bind_some (exec_strlen ha), exec_bind_some (exec_strlen hb)]
  unfold lengthOrError
  by_cases hs : s.length ≤ 1001
  · by_cases h : s.length = t.length
    · have ht : t.length ≤ 1001 := by omega
      rw [if_pos hs, if_pos ht, if_neg (by simpa using h), Int.toNat_natCast,
        exec_strcmpLoop (i := 0) ha hb (by omega) (by omega)]
      simp [Nat.not_lt.mpr hs]
    · have hne : s ≠ t := fun e => h (congrArg List.length e)
      rw [if_pos hs, if_pos (by split_ifs <;> omega)]
      simp [hne, Nat.not_lt.mpr hs]
  · by_cases ht : t.length ≤ 1001
    · have hne : s ≠ t := fun e => hs (e ▸ ht)
      rw [if_neg hs, if_pos ht, if_pos (by omega)]
      simp [hne, Nat.not_lt.mpr ht]
    · rw [if_neg hs, if_neg ht, if_neg (by simp)]
      simp [Nat.not_le.mp hs, Nat.not_le.mp ht, strcmpLoop]

/-! ## New strings -/

theorem exec_strdup (ha : Text m a s) (hs : s.length ≤ 1001) :
    exec (strdup a) m = (some (.into (.block m.size) 0), m.push (s ++ [0])) := by
  have hlen : lengthOrError s = s.length := if_pos hs
  have hsize : toSize ((s.length : ℤ) + 1) = s.length + 1 := Shell.toSize_succ (by omega)
  obtain ⟨r, e⟩ := ha.view
  rw [strdup, exec_bind_some (exec_strlen ha), hlen, hsize,
    exec_bind_some (exec_malloc (by omega) (by omega)), exec_bind_some (exec_strlen ha.push), hlen, hsize,
    exec_bind_some (exec_memcpy Mem.look_push_self (Addr.view_push e) ha.base_ne_size (by simp) (by simp)),
    Mem.push_put, take_length_succ, List.drop_eq_nil_of_le (by simp), List.append_nil]
  rfl

theorem exec_strdup_long (ha : Text m a s) (hs : 1001 < s.length) :
    exec (strdup a) m = (some .null, m) := by
  have hlen : lengthOrError s = -1 := if_neg (by omega)
  have hsize : toSize (-1 + 1) = 0 := rfl
  have hnull : exec (malloc 0) m = (some .null, m) := rfl
  rw [strdup, exec_bind_some (exec_strlen ha), hlen, hsize, exec_bind_some hnull,
    exec_bind_some (exec_strlen ha), hlen, hsize]
  rfl

/-- **`str_concat`** puts the second string behind the first. -/
theorem exec_strConcat (ha : Text m a s) (hb : Text m b t) (hs : s.length ≤ 1001) (ht : t.length ≤ 1001) :
    exec (strConcat a b) m = (some (.into (.block m.size) 0), m.push (s ++ t ++ [0])) := by
  have hsl : lengthOrError s = s.length := if_pos hs
  have htl : lengthOrError t = t.length := if_pos ht
  have hsize : toSize ((s.length : ℤ) + t.length + 1) = s.length + t.length + 1 := by
    exact_mod_cast toSize_natCast (n := s.length + t.length + 1) (by omega)
  rw [strConcat, exec_bind_some (exec_strlen ha), exec_bind_some (exec_strlen hb), hsl, htl, hsize,
    exec_bind_some (exec_malloc (by omega) (by omega)), if_neg (by simp)]
  generalize hj : fresh m (s.length + t.length + 1) = junk
  have hjl : junk.length = s.length + t.length + 1 := by simp [← hj]
  have hlook : ∀ l, (m.push l).look m.size = some l := fun l => Mem.look_push_self
  have hlt : ∀ l, m.size < (m.push l).size := fun l => by simp
  have hfirst := exec_forM_store a.load s 0 (hlook junk)
    (fun i hi l' => (ha.push.put (hlt _) ha.base_ne_size).load hi) (by omega)
  simp only [Nat.zero_add, List.take_zero, List.nil_append, Mem.push_put] at hfirst
  have hsecond := exec_forM_store b.load t s.length (hlook (s ++ junk.drop s.length))
    (fun i hi l' => (hb.push.put (hlt _) hb.base_ne_size).load hi) (by simp [hjl]; omega)
  simp only [Mem.push_put] at hsecond
  have hcast : ∀ i : ℕ, ((s.length : ℤ) + i) = ((s.length + i : ℕ) : ℤ) := fun i => by push_cast; rfl
  simp only [Int.toNat_natCast, hcast, Addr.store_natCast, Nat.zero_add]
  rw [exec_bind_some hfirst, exec_bind_some hsecond, exec_bind_some (exec_store (hlook _) (by simp [hjl])),
    Mem.push_put, set_length_append_append_drop hjl]
  rfl

/-! ## The last place of a character -/

theorem exec_strrchrLoop_notMem (h : Text m a (s ++ t)) (ht : x ∉ t) (hf : t.length < fuel) :
    exec (strrchrLoop a x fuel s.length b) m = (some b, m) := by
  induction t generalizing s fuel with
  | nil =>
    rw [List.append_nil] at h
    obtain ⟨fuel, rfl⟩ := Nat.exists_eq_add_of_lt hf
    rw [strrchrLoop, exec_bind_some h.load_zero, if_pos rfl]
    rfl
  | cons y t ih =>
    rw [List.mem_cons, not_or] at ht
    rw [List.length_cons] at hf
    obtain ⟨fuel, rfl⟩ := Nat.exists_eq_add_of_lt hf
    have hlt : s.length < (s ++ y :: t).length := by simp
    have hy : (s ++ y :: t)[s.length] = y := by simp
    have hnext : exec (strrchrLoop a x (t.length + 1 + fuel) (s ++ [y]).length b) m = (some b, m) :=
      ih (by simpa using h) ht.2 (by omega)
    rw [List.length_append, List.length_singleton] at hnext
    rw [strrchrLoop, exec_bind_some (h.load hlt), if_neg (h.getElem_ne hlt), hy, if_neg (Ne.symm ht.1), hnext]

theorem exec_strrchrLoop (h : Text m a (s ++ x :: t)) (ht : x ∉ t) (hi : i ≤ s.length)
    (hf : s.length - i + t.length + 1 < fuel) :
    exec (strrchrLoop a x fuel i b) m = (some (a.add s.length), m) := by
  obtain ⟨k, hk⟩ := Nat.exists_eq_add_of_le hi
  induction k generalizing i fuel b with
  | zero =>
    obtain rfl : s.length = i := hk
    obtain ⟨fuel, rfl⟩ := Nat.exists_eq_add_of_lt hf
    have hlt : s.length < (s ++ x :: t).length := by simp
    have hx : (s ++ x :: t)[s.length] = x := by simp
    have hnext : exec (strrchrLoop a x (s.length - s.length + t.length + 1 + fuel) (s ++ [x]).length
        (a.add s.length)) m = (some (a.add s.length), m) :=
      exec_strrchrLoop_notMem (by simpa using h) ht (by omega)
    rw [List.length_append, List.length_singleton] at hnext
    rw [strrchrLoop, exec_bind_some (h.load hlt), if_neg (h.getElem_ne hlt), hx, if_pos rfl, hnext]
  | succ k ih =>
    obtain ⟨fuel, rfl⟩ := Nat.exists_eq_add_of_lt hf
    have hlt : i < (s ++ x :: t).length := by
      rw [List.length_append]
      omega
    rw [strrchrLoop, exec_bind_some (h.load hlt), if_neg (h.getElem_ne hlt)]
    exact ih (by omega) (by omega) (by omega)

/-- **`strrchr`** finds the last place of a character. -/
theorem exec_strrchr (h : Text m a (s ++ x :: t)) (ht : x ∉ t) :
    exec (strrchr a x) m = (some (a.add s.length), m) := by
  obtain ⟨r, e⟩ := h.view
  rw [strrchr, exec_bind_some (Addr.exec_rounds e)]
  refine exec_strrchrLoop h ht (Nat.zero_le _) ?_
  simp
  omega

/-! ## Tokens -/

theorem exec_skipDelims (h : Text m a s) (hd : delim ≠ 0) (hi : i ≤ s.length) (hf : s.length - i < fuel) :
    exec (skipDelims a delim fuel i) m = (some (i + ((s.drop i).takeWhile (· = delim)).length), m) := by
  induction fuel generalizing i with
  | zero => omega
  | succ fuel ih =>
    rw [skipDelims]
    rcases Nat.lt_or_eq_of_le hi with hlt | rfl
    · rw [exec_bind_some (h.load hlt), List.drop_eq_getElem_cons hlt]
      by_cases hc : s[i] = delim
      · rw [if_pos hc, ih (i := i + 1) hlt (by omega), List.takeWhile_cons_of_pos (by simpa using hc),
          List.length_cons, Nat.add_assoc, Nat.add_comm 1]
      · rw [if_neg hc, List.takeWhile_cons_of_neg (by simpa using hc)]
        rfl
    · rw [exec_bind_some h.load_zero, if_neg (Ne.symm hd), List.drop_length]
      rfl

theorem exec_endOfToken (h : Text m a s) (hi : i ≤ s.length) (hf : s.length - i < fuel) :
    exec (endOfToken a delim fuel i) m = (some (i + ((s.drop i).takeWhile (· ≠ delim)).length), m) := by
  induction fuel generalizing i with
  | zero => omega
  | succ fuel ih =>
    rw [endOfToken]
    rcases Nat.lt_or_eq_of_le hi with hlt | rfl
    · rw [exec_bind_some (h.load hlt), List.drop_eq_getElem_cons hlt]
      by_cases hc : s[i] = delim
      · rw [if_neg (fun e => e.2 hc), List.takeWhile_cons_of_neg (by simpa using hc)]
        rfl
      · rw [if_pos ⟨h.getElem_ne hlt, hc⟩, ih (i := i + 1) hlt (by omega),
          List.takeWhile_cons_of_pos (by simpa using hc), List.length_cons, Nat.add_assoc, Nat.add_comm 1]
    · rw [exec_bind_some h.load_zero, if_neg (by simp), List.drop_length]
      rfl

/-- **The next token** is the next word. -/
theorem exec_nextToken (h : Text m a s) (hd : delim ≠ 0) (hi : i ≤ s.length) (hf : s.length - i < fuel) :
    words delim (s.drop i) = [] ∧ exec (nextToken a delim fuel i) m = (some none, m) ∨
      ∃ j n, i ≤ j ∧ 0 < n ∧ j + n ≤ s.length ∧
        words delim (s.drop i) = (s.drop j).take n :: words delim (s.drop (j + n)) ∧
        exec (nextToken a delim fuel i) m = (some (some (j, j + n)), m) := by
  rw [nextToken]
  rcases Nat.lt_or_eq_of_le hi with hlt | rfl
  · rw [exec_bind_some (h.load hlt), if_neg (h.getElem_ne hlt),
      exec_bind_some (exec_skipDelims h hd hi hf)]
    obtain ⟨j, hj⟩ : ∃ j, j = i + ((s.drop i).takeWhile (· = delim)).length := ⟨_, rfl⟩
    rw [← hj]
    rcases next_word hi hj with ⟨rfl, hwords⟩ | ⟨hlt', n, hn, hn₀, hns, hwords⟩
    · refine .inl ⟨hwords, ?_⟩
      rw [exec_bind_some h.load_zero, if_pos rfl]
      rfl
    · refine .inr ⟨j, n, by omega, hn₀, hns, hwords, ?_⟩
      rw [exec_bind_some (h.load hlt'), if_neg (h.getElem_ne hlt'),
        exec_bind_some (exec_endOfToken h hlt'.le (by omega)), ← hn]
      rfl
  · refine .inl ⟨by simp, ?_⟩
    rw [exec_bind_some h.load_zero, if_pos rfl]
    rfl

theorem exec_countTokens (h : Text m a s) (hd : delim ≠ 0) (hi : i ≤ s.length) (hf : s.length - i < fuel) :
    exec (countTokens a delim fuel i n) m = (some (n + (words delim (s.drop i)).length), m) := by
  induction fuel generalizing i n with
  | zero => omega
  | succ fuel ih =>
    rw [countTokens]
    rcases exec_nextToken h hd hi hf with ⟨hwords, he⟩ | ⟨j, k, hij, hk₀, hk, hwords, he⟩
    · rw [exec_bind_some he, hwords]
      rfl
    · rw [exec_bind_some he, hwords, List.length_cons]
      dsimp only
      rw [ih hk (by omega), Nat.add_assoc, Nat.add_comm 1]

/-- The addresses of some blocks. -/
def addresses (ps : List (ℕ × List UInt8)) : List Addr := ps.map fun x => .into (.block x.1) 0

theorem view_before (h : Parts m₀ m ps) (ha : a.view m₀ = some l) : a.view m = some l := by
  cases a with
  | null => exact ha
  | into p o =>
    obtain ⟨k, hk, rfl⟩ := Option.map_eq_some_iff.mp ha
    rw [Addr.view, h.bytes_before hk]
    rfl

theorem text_before (h : Parts m₀ m ps) (ha : Text m₀ a s) : Text m a s := by
  obtain ⟨r, e⟩ := ha.view
  exact ⟨ha.zero_notMem, r, view_before h e⟩

/-- **The second loop of `str_split`** makes a token of every word. -/
theorem exec_fillTokens (h : Parts m₀ m ps) (ha : Text m₀ a s) (hd : delim ≠ 0) (hs : s.length < 2 ^ 31)
    (hi : i ≤ s.length) (hf : s.length - i < fuel) (hn : ps.length + (words delim (s.drop i)).length ≤ n) :
    ∃ qs m', exec (fillTokens a delim n fuel i (addresses ps)) m = (some (addresses qs), m') ∧
      Parts m₀ m' qs ∧ qs.map Prod.snd = ps.map Prod.snd ++ words delim (s.drop i) := by
  induction fuel generalizing i m ps with
  | zero => omega
  | succ fuel ih =>
    have ham := text_before h ha
    rw [fillTokens]
    rcases exec_nextToken ham hd hi hf with ⟨hwords, he⟩ | ⟨j, k, hij, hk₀, hk, hwords, he⟩
    · refine ⟨ps, m, ?_, h, by rw [hwords, List.append_nil]⟩
      rw [exec_bind_some he]
      rfl
    · rw [hwords, List.length_cons] at hn
      have hroom : (addresses ps).length < n := by
        rw [addresses, List.length_map]
        omega
      obtain ⟨r, e⟩ := ham.view
      have hview : (a.add j).view m = some ((s ++ 0 :: r).drop j) := by
        rw [Addr.view_add, e]
        rfl
      have hcopy := exec_copyOf (n := k) hview (by simp; omega) (by omega)
      have htake : ((s ++ 0 :: r).drop j).take k = (s.drop j).take k := by
        rw [List.drop_append_of_le_length (by omega), List.take_append_of_le_length (by simp; omega)]
      rw [htake] at hcopy
      have hpush := h.push ((s.drop j).take k)
      obtain ⟨qs, m', hrun, hqs, hnames⟩ := ih hpush hk (by omega) (by simp; omega)
      refine ⟨qs, m', ?_, hqs, ?_⟩
      · rw [exec_bind_some he]
        dsimp only
        rw [if_pos hroom, Nat.add_sub_cancel_left, exec_bind_some hcopy, ← hrun]
        simp [addresses]
      · rw [hnames, hwords]
        simp

/-- **`str_split`**: the words of a string. -/
theorem exec_strSplit (ha : Text m a s) (hd : delim ≠ 0) (hs : s.length < 2 ^ 31) :
    ∃ ps m', exec (strSplit a delim) m = (some (addresses ps, ps.length), m') ∧ Parts m m' ps ∧
      ps.map Prod.snd = words delim s := by
  obtain ⟨r, e⟩ := ha.view
  have hf : s.length - 0 < (s ++ 0 :: r).length := by simp
  obtain ⟨ps, m', he, hP, hnames⟩ := exec_fillTokens (n := 0 + (words delim (s.drop 0)).length) (.refl m) ha hd
    hs (Nat.zero_le _) hf (by simp)
  rw [List.map_nil, List.nil_append, List.drop_zero] at hnames
  rw [show addresses [] = [] from rfl] at he
  have hcount : 0 + (words delim (s.drop 0)).length = ps.length := by
    rw [List.drop_zero, ← hnames, List.length_map, Nat.zero_add]
  refine ⟨ps, m', ?_, hP, hnames⟩
  rw [strSplit, exec_bind_some (Addr.exec_rounds e), exec_bind_some (exec_countTokens ha hd (Nat.zero_le _) hf),
    exec_bind_some he, hcount]
  rfl

end Util
