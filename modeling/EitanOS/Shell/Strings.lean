import EitanOS.Lib.Objects
import Mathlib.Data.List.GetD

/-!
# Strings of the shell (`programs/shell/c.c`)

The string functions of the shell, on its memory. `malloc` is taken to succeed: where the heap is full,
`substr` and `strdup` write through the null pointer it returns and the process ends.

* `exec_strlen`, `exec_strcmp`: what a string is measured and compared as, up to 1001 characters.
* `exec_strncmp`: whether some characters are the beginning of a string.
* **`exec_strConcat`**, **`exec_substr`**, `exec_strdup`: the new block, and nothing else changes.
* `exec_memcpy`, `exec_memcpy_none`: a copy, and one that does not fit.
-/

namespace Shell

open Prog Objects

/-! ## The functions -/

/-- `memcpy`. -/
def memcpy (dest src : Ptr) (size : ℕ) : Code Mem PUnit :=
  (List.range size).forM fun i => do store dest i (← load src i)

/-- `memset`. -/
def memset (dest : Ptr) (val : UInt8) (size : ℕ) : Code Mem PUnit :=
  (List.range size).forM fun i => store dest i val

/-- The loop of `strlen` from `count` on, for at most `fuel` rounds. -/
def strlenLoop (str : Ptr) : ℕ → ℕ → Code Mem ℤ
  | 0, _ => failure
  | fuel + 1, count => do
    if (← load str count) = 0 then return count
    else if 1000 < count then return -1
    else strlenLoop str fuel (count + 1)

/-- `strlen`: the loop ends after 1002 rounds at the latest. -/
def strlen (str : Ptr) : Code Mem ℤ := strlenLoop str 1002 0

/-- The size a length stands for as an argument of `malloc` or `memcpy`. -/
def toSize (n : ℤ) : ℕ := (n % 2 ^ 64).toNat

/-- `str_concat`. -/
def strConcat (s₁ s₂ : Ptr) : Code Mem Ptr := do
  let len₁ ← strlen s₁
  let len₂ ← strlen s₂
  let result ← malloc (toSize (len₁ + len₂ + 1))
  (List.range len₁.toNat).forM fun i => do store result i (← load s₁ i)
  (List.range len₂.toNat).forM fun i => do storeInt result (len₁ + i) (← load s₂ i)
  storeInt result (len₁ + len₂) 0
  return result

/-- `strdup`. -/
def strdup (str : Ptr) : Code Mem Ptr := do
  let result ← malloc (toSize ((← strlen str) + 1))
  memcpy result str (toSize ((← strlen str) + 1))
  return result

/-- `str_concats`, for a list of at least one string. -/
def strConcats : List Ptr → Code Mem Ptr
  | [] => failure
  | s :: strings => do
    strings.foldlM (fun result s => do
      let temp ← strConcat result s
      free result
      return temp) (← strdup s)

/-- The loop of `strcmp` from `i` on. -/
def strcmpLoop (s₁ s₂ : Ptr) : ℕ → ℕ → Code Mem Bool
  | 0, _ => return true
  | k + 1, i => do
    if (← load s₁ i) ≠ (← load s₂ i) then return false
    else strcmpLoop s₁ s₂ k (i + 1)

/-- `strcmp`: 1 when the strings are equal. -/
def strcmp (s₁ s₂ : Ptr) : Code Mem Bool := do
  let len ← strlen s₁
  if len ≠ (← strlen s₂) then return false
  else strcmpLoop s₁ s₂ len.toNat 0

/-- The loop of `strncmp` from `i` on. -/
def strncmpLoop (s₁ s₂ : Ptr) : ℕ → ℕ → Code Mem Bool
  | 0, _ => return true
  | n + 1, i => do
    let c ← load s₁ i
    if c ≠ (← load s₂ i) ∨ c = 0 then return false
    else strncmpLoop s₁ s₂ n (i + 1)

/-- `strncmp`: 1 when the first `n` characters are equal and none of them is the final zero. -/
def strncmp (s₁ s₂ : Ptr) (n : ℕ) : Code Mem Bool := strncmpLoop s₁ s₂ n 0

/-- The loop of `substr` from `i` on. -/
def substrLoop (str newStr : Ptr) (start : ℕ) : ℕ → ℕ → Code Mem PUnit
  | 0, _ => return ⟨⟩
  | k + 1, i => do
    store newStr i (← load str (start + i))
    if (← load str (start + i)) = 0 then return ⟨⟩
    else substrLoop str newStr start k (i + 1)

/-- `substr`. -/
def substr (str : Ptr) (start size : ℕ) : Code Mem Ptr := do
  let newStr ← malloc (size + 1)
  substrLoop str newStr start size 0
  store newStr size 0
  return newStr

variable {m : Mem} {p q : Ptr} {b n : ℕ} {l s t w : List UInt8} {v : UInt8}

/-! ## Copies -/

theorem exec_memcpy (hb : m.look b = some l) (hp : m.bytes p = some s) (hne : p ≠ .block b)
    (hl : n ≤ l.length) (hs : n ≤ s.length) :
    exec (memcpy (.block b) p n) m = (some ⟨⟩, m.put b (s.take n ++ l.drop n)) := by
  have hw : (s.take n).length = n := List.length_take_of_le hs
  have h := exec_forM_store (load p) (s.take n) 0 hb
    (fun i hi l' => ?_) (by omega)
  · simp only [hw, Nat.zero_add, List.take_zero, List.nil_append] at h
    exact h
  · refine exec_load ((Mem.bytes_put (Mem.lt_size hb) hne).trans hp) ?_
    rw [List.getElem?_eq_getElem (by omega), List.getElem_take]

/-- **A copy that does not fit** stops. -/
theorem exec_memcpy_none (hb : m.look b = some l) (hp : m.bytes p = some s) (hne : p ≠ .block b)
    (hl : l.length < n) (hs : n ≤ s.length) : (exec (memcpy (.block b) p n) m).1 = none := by
  have hlt := Mem.lt_size hb
  let g : ℕ → Mem := fun i => m.put b (s.take i ++ l.drop i)
  have h₀ : g 0 = m := by
    simp only [g, List.take_zero, List.nil_append, List.drop_zero]
    exact Mem.put_look hb
  have hload : ∀ i < n, exec (load p i) (g i) = (some (s.getD i 0), g i) := by
    intro i hi
    refine exec_load ((Mem.bytes_put hlt hne).trans hp) ?_
    rw [List.getD_eq_getElem?_getD, List.getElem?_eq_getElem (by omega), Option.getD_some]
  have hround : ∀ i < l.length, exec (load p i >>= fun v => store (.block b) i v) (g i) =
      (some ⟨⟩, g (i + 1)) := by
    intro i hi
    rw [exec_bind_some (hload i (by omega)), exec_store (Mem.look_put_self hlt), Mem.put_put]
    · have his : i < s.length := by omega
      rw [List.getD_eq_getElem _ _ his, set_take_append_drop his hi]
    · simp
      omega
  have hlast : exec (load p l.length >>= fun v => store (.block b) l.length v) (g l.length) =
      (none, g l.length) := by
    rw [exec_bind_some (hload _ hl), exec_store_none (Mem.look_put_self hlt)]
    simp
  have h := exec_forM_range_none hround hl hlast
  rw [h₀] at h
  exact congrArg Prod.fst h

theorem exec_memset (hb : m.look b = some l) (hl : n ≤ l.length) :
    exec (memset (.block b) v n) m = (some ⟨⟩, m.put b (List.replicate n v ++ l.drop n)) := by
  have h := exec_forM_store (fun _ => pure v) (List.replicate n v) 0 hb
    (fun i hi l' => by simp) (by simpa using hl)
  simp only [List.length_replicate, Nat.zero_add, List.take_zero, List.nil_append, pure_bind] at h
  exact h

/-! ## Lengths and comparisons -/

theorem exec_strlenLoop {fuel count : ℕ} (h : Str m p s) (hc : count ≤ s.length) (hs : s.length ≤ 1001)
    (hf : s.length - count < fuel) : exec (strlenLoop p fuel count) m = (some (s.length : ℤ), m) := by
  induction fuel generalizing count with
  | zero => omega
  | succ fuel ih =>
    rw [strlenLoop]
    rcases Nat.lt_or_eq_of_le hc with hlt | rfl
    · rw [exec_bind_some (h.load hlt), if_neg (h.getElem_ne hlt), if_neg (by omega)]
      exact ih hlt (by omega)
    · rw [exec_bind_some h.load_zero, if_pos rfl]
      rfl

theorem exec_strlen (h : Str m p s) (hs : s.length ≤ 1001) :
    exec (strlen p) m = (some (s.length : ℤ), m) :=
  exec_strlenLoop h (Nat.zero_le _) hs (by omega)

theorem exec_strcmpLoop {k i : ℕ} (hp : Str m p s) (hq : Str m q t) (hs : s.length = i + k)
    (ht : t.length = i + k) : exec (strcmpLoop p q k i) m = (some (decide (s.drop i = t.drop i)), m) := by
  induction k generalizing i with
  | zero => simp [strcmpLoop, List.drop_eq_nil_of_le, hs, ht]
  | succ k ih =>
    have his : i < s.length := by omega
    have hit : i < t.length := by omega
    rw [strcmpLoop, exec_bind_some (hp.load his), exec_bind_some (hq.load hit)]
    simp only [drop_eq_drop_iff his hit]
    by_cases h : s[i] = t[i]
    · rw [if_neg (not_not.mpr h), ih (by omega) (by omega)]
      simp only [h, true_and]
    · rw [if_pos h, decide_eq_false (not_and_of_not_left _ h)]
      rfl

/-- **`strcmp` compares strings.** -/
theorem exec_strcmp (hp : Str m p s) (hq : Str m q t) (hs : s.length ≤ 1001) (ht : t.length ≤ 1001) :
    exec (strcmp p q) m = (some (decide (s = t)), m) := by
  rw [strcmp, exec_bind_some (exec_strlen hp hs), exec_bind_some (exec_strlen hq ht)]
  by_cases h : s.length = t.length
  · rw [if_neg (by simpa using h), Int.toNat_natCast,
      exec_strcmpLoop (k := s.length) hp hq (by omega) (by omega)]
    rfl
  · have hne : s ≠ t := fun e => h (congrArg List.length e)
    rw [if_pos (by exact_mod_cast h)]
    simp [hne]

theorem exec_strncmpLoop {u x : List UInt8} (hp : m.bytes p = some (u ++ (w ++ l))) (hw : 0 ∉ w)
    (hq : Str m q (x ++ t)) (hu : x.length = u.length) :
    exec (strncmpLoop p q w.length u.length) m = (some (decide (w <+: t)), m) := by
  induction w generalizing u x t with
  | nil => simp [strncmpLoop]
  | cons c w ih =>
    rw [List.mem_cons, not_or] at hw
    have hload : exec (load p u.length) m = (some c, m) := exec_load hp (by simp)
    rw [List.length_cons, strncmpLoop, exec_bind_some hload]
    cases t with
    | nil =>
      rw [List.append_nil] at hq
      rw [← hu, exec_bind_some hq.load_zero, if_pos (.inl (Ne.symm hw.1))]
      simp
    | cons d t =>
      have hload' : exec (load q u.length) m = (some d, m) := by
        rw [← hu, hq.load (by simp)]
        simp
      rw [exec_bind_some hload']
      by_cases hcd : c = d
      · have h := ih (u := u ++ [c]) (x := x ++ [c]) (t := t) (by simpa using hp) hw.2
          (by simpa [hcd] using hq) (by simpa using hu)
        rw [List.length_append, List.length_singleton] at h
        rw [if_neg (by simpa [hcd] using fun e : d = 0 => hw.1 (hcd.trans e).symm), h]
        simp [hcd]
      · rw [if_pos (.inl hcd)]
        simp [hcd]

/-- **`strncmp` tests for the beginning of a string**, whatever comes behind the `n` characters. -/
theorem exec_strncmp (hp : m.bytes p = some (w ++ l)) (hw : 0 ∉ w) (hq : Str m q t) :
    exec (strncmp p q w.length) m = (some (decide (w <+: t)), m) :=
  exec_strncmpLoop (u := []) (x := []) hp hw hq rfl

/-! ## New strings -/

theorem toSize_natCast (h : n < 2 ^ 64) : toSize n = n := by
  unfold toSize
  omega

theorem toSize_succ (h : n < 2 ^ 64 - 1) : toSize ((n : ℤ) + 1) = n + 1 := by
  unfold toSize
  omega

/-- **`str_concat`** puts the second string behind the first. -/
theorem exec_strConcat (hp : Str m p s) (hq : Str m q t) (hs : s.length ≤ 1001) (ht : t.length ≤ 1001) :
    exec (strConcat p q) m = (some (.block m.size), m.push (s ++ t ++ [0])) := by
  have hsize : toSize ((s.length : ℤ) + t.length + 1) = s.length + t.length + 1 := by
    exact_mod_cast toSize_natCast (n := s.length + t.length + 1) (by omega)
  rw [strConcat, exec_bind_some (exec_strlen hp hs), exec_bind_some (exec_strlen hq ht), hsize,
    exec_bind_some (exec_malloc m _)]
  generalize hj : (List.range (s.length + t.length + 1)).map (m.junk m.size) = junk
  have hjl : junk.length = s.length + t.length + 1 := by simp [← hj]
  have hlook : ∀ l, (m.push l).look m.size = some l := fun l => Mem.look_push_self
  have hlt : ∀ l, m.size < (m.push l).size := fun l => by simp
  have hfirst := exec_forM_store (load p) s 0 (hlook junk)
    (fun i hi l' => (hp.push.put (hlt _) hp.ne_size).load hi) (by omega)
  simp only [Nat.zero_add, List.take_zero, List.nil_append, Mem.push_put] at hfirst
  have hsecond := exec_forM_store (load q) t s.length (hlook (s ++ junk.drop s.length))
    (fun i hi l' => (hq.push.put (hlt _) hq.ne_size).load hi) (by simp [hjl]; omega)
  simp only [Mem.push_put] at hsecond
  have hcast : ∀ i : ℕ, ((s.length : ℤ) + i) = ((s.length + i : ℕ) : ℤ) := fun i => by push_cast; rfl
  rw [Int.toNat_natCast, Int.toNat_natCast, exec_bind_some hfirst]
  simp only [hcast, storeInt_natCast]
  rw [exec_bind_some hsecond, exec_bind_some (exec_store (hlook _) (by simp [hjl])), Mem.push_put,
    set_length_append_append_drop hjl]
  rfl

/-- **`strdup`** copies a string. -/
theorem exec_strdup (hp : Str m p s) (hs : s.length ≤ 1001) :
    exec (strdup p) m = (some (.block m.size), m.push (s ++ [0])) := by
  have hsize : toSize ((s.length : ℤ) + 1) = s.length + 1 := toSize_succ (by omega)
  rw [strdup, exec_bind_some (exec_strlen hp hs), hsize, exec_bind_some (exec_malloc m _),
    exec_bind_some (exec_strlen hp.push hs), hsize]
  obtain ⟨r, e⟩ := (Str.push (l := (List.range (s.length + 1)).map (m.junk m.size)) hp).bytes
  rw [exec_bind_some (exec_memcpy Mem.look_push_self e hp.ne_size (by simp) (by simp)),
    Mem.push_put, take_length_succ, List.drop_eq_nil_of_le (by simp), List.append_nil]
  rfl

theorem exec_substrLoop (start k i : ℕ) (hb : m.look b = some l) (hp : m.bytes p = some s)
    (hne : p ≠ .block b) (hk : start + (i + k) ≤ s.length) (hl : i + k ≤ l.length)
    (h₀ : 0 ∉ (s.drop start).take (i + k)) :
    exec (substrLoop p (.block b) start k i) (m.put b ((s.drop start).take i ++ l.drop i)) =
      (some ⟨⟩, m.put b ((s.drop start).take (i + k) ++ l.drop (i + k))) := by
  have hlt := Mem.lt_size hb
  induction k generalizing i with
  | zero => rfl
  | succ k ih =>
    have his : i < (s.drop start).length := by
      rw [List.length_drop]
      omega
    have hget : s[start + i]? = some (s.drop start)[i] := by
      rw [List.getElem_drop, List.getElem?_eq_getElem]
    have hload : ∀ l', exec (load p (start + i)) (m.put b l') = (some (s.drop start)[i], m.put b l') :=
      fun l' => exec_load ((Mem.bytes_put hlt hne).trans hp) hget
    have hnz : (s.drop start)[i] ≠ 0 := by
      intro e
      refine h₀ (e ▸ ?_)
      rw [List.mem_take_iff_getElem]
      exact ⟨i, by omega, rfl⟩
    rw [substrLoop, exec_bind_some (hload _),
      exec_bind_some (exec_store (Mem.look_put_self hlt) (by simp; omega)), Mem.put_put,
      set_take_append_drop his (by omega), exec_bind_some (hload _), if_neg hnz]
    rw [show i + (k + 1) = i + 1 + k by omega] at hk hl h₀ ⊢
    exact ih (i + 1) hk hl h₀

/-- **`substr`** copies a part of a string. -/
theorem exec_substr (start : ℕ) (hp : m.bytes p = some s) (hne : p ≠ .block m.size)
    (hn : start + n ≤ s.length) (h₀ : 0 ∉ (s.drop start).take n) :
    exec (substr p start n) m = (some (.block m.size), m.push ((s.drop start).take n ++ [0])) := by
  rw [substr, exec_bind_some (exec_malloc m _)]
  generalize hj : (List.range (n + 1)).map (m.junk m.size) = junk
  have hjl : junk.length = n + 1 := by simp [← hj]
  have hlook : ∀ l, (m.push l).look m.size = some l := fun l => Mem.look_push_self
  have hpush : (m.push junk).bytes p = some s := (Mem.bytes_push hne).trans hp
  have hloop := exec_substrLoop start n 0 (hlook junk) hpush hne (by omega) (by omega)
    (by rwa [Nat.zero_add])
  simp only [Nat.zero_add, List.take_zero, List.nil_append, List.drop_zero, Mem.push_put] at hloop
  have hw : ((s.drop start).take n).length = n := by
    rw [List.length_take, List.length_drop]
    omega
  rw [exec_bind_some hloop, exec_bind_some (exec_store (hlook _) (by simp [hw, hjl])), Mem.push_put,
    set_length_append_drop hw hjl]
  rfl

theorem exec_substr_str {start : ℕ} (hp : Str m p s) (hn : start + n ≤ s.length) :
    exec (substr p start n) m = (some (.block m.size), m.push ((s.drop start).take n ++ [0])) := by
  obtain ⟨r, e⟩ := hp.bytes
  have htake : ((s ++ 0 :: r).drop start).take n = (s.drop start).take n := by
    rw [List.drop_append_of_le_length (by omega), List.take_append_of_le_length (by rw [List.length_drop]; omega)]
  have h₀ : 0 ∉ (s.drop start).take n := fun h =>
    hp.zero_notMem (List.mem_of_mem_drop (List.mem_of_mem_take h))
  have h := exec_substr start e hp.ne_size (n := n) (by simp; omega) (htake ▸ h₀)
  rwa [htake] at h

end Shell
