import EitanOS.Lib.Bytes
import Mathlib.Data.List.GetD
import Mathlib.Data.List.TakeWhile

/-!
# Strings (`util/string.c`)

A string the code only walks through once, such as a path, is the list of its bytes before the
terminating zero; `toBuf` is its memory. Names inside a directory are read in place, from a buffer.
-/

namespace EitanOS

open Bytes

/-- `'/'`. -/
abbrev slash : UInt8 := 47

/-- The memory of a string. -/
def toBuf (s : List UInt8) : Buf := fun k => s.getD k 0

/-- The loop of `strlen` from `count` on. -/
def strlenLoop (s : Buf) : ℕ → ℕ → Option ℕ
  | 0, _ => none
  | fuel + 1, count => if s count = 0 then some count else strlenLoop s fuel (count + 1)

/-- `strlen`; `none` is the `-1` it returns past 1001 characters. -/
def strlen (s : Buf) : Option ℕ := strlenLoop s 1002 0

/-- `strcmp`: 1 when the strings are equal. For two strings past 1001 characters, the length `-1`
makes the loop compare nothing. -/
def strcmp (s₁ s₂ : Buf) : Bool :=
  strlen s₁ = strlen s₂ && (List.range ((strlen s₁).getD 0)).all fun i => s₁ i == s₂ i

/-- The tokens of `str_split`, with the characters of the current one, last first. -/
def strSplitLoop (delim : UInt8) : List UInt8 → List UInt8 → List (List UInt8)
  | tok, [] => if tok = [] then [] else [tok.reverse]
  | tok, c :: s =>
    if c = delim then
      if tok = [] then strSplitLoop delim [] s else tok.reverse :: strSplitLoop delim [] s
    else strSplitLoop delim (c :: tok) s

/-- `str_split`. -/
def strSplit (s : List UInt8) (delim : UInt8) : List (List UInt8) := strSplitLoop delim [] s

/-! ## Lengths and comparisons of names in place -/

variable {s s₁ s₂ : Buf} {n : ℕ}

theorem strlenLoop_eq {fuel count : ℕ} (h₀ : s (count + n) = 0) (h : ∀ i < n, s (count + i) ≠ 0)
    (hn : n < fuel) : strlenLoop s fuel count = some (count + n) := by
  induction fuel generalizing count n with
  | zero => exact absurd hn (Nat.not_lt_zero _)
  | succ fuel ih =>
    rw [strlenLoop]
    cases n with
    | zero => rw [if_pos (by simpa using h₀), Nat.add_zero]
    | succ n =>
      rw [if_neg (by simpa using h 0 (Nat.succ_pos n)), ih (n := n)]
      · rw [Nat.add_assoc, Nat.add_comm 1 n]
      · rw [Nat.add_assoc, Nat.add_comm 1 n]
        exact h₀
      · intro i hi
        rw [Nat.add_assoc, Nat.add_comm 1 i]
        exact h (i + 1) (by omega)
      · omega

theorem strlen_eq (h₀ : s n = 0) (h : ∀ i < n, s i ≠ 0) (hn : n ≤ 1001) : strlen s = some n := by
  rw [strlen, strlenLoop_eq (n := n) (by simpa using h₀) (by simpa using h) (by omega),
    Nat.zero_add]

theorem strcmp_iff {n₁ n₂ : ℕ} (h₁ : strlen s₁ = some n₁) (h₂ : strlen s₂ = some n₂) :
    strcmp s₁ s₂ = true ↔ n₁ = n₂ ∧ ∀ i < n₁, s₁ i = s₂ i := by
  simp [strcmp, h₁, h₂]

/-- The string in a field of `n` bytes: those before the first zero. -/
def cstr (s : Buf) (n : ℕ) : List UInt8 := ((List.range n).map s).takeWhile (· ≠ 0)

theorem getElem_cstr {k : ℕ} (hk : k < (cstr s n).length) : (cstr s n)[k] = s k := by
  have hp : cstr s n <+: (List.range n).map s := List.takeWhile_prefix _
  rw [hp.getElem hk, List.getElem_map, List.getElem_range]

theorem zero_notMem_cstr : (0 : UInt8) ∉ cstr s n := by
  intro h
  simpa using List.mem_takeWhile_imp h

theorem apply_length_cstr (h : (cstr s n).length < n) : s (cstr s n).length = 0 := by
  have hd : ((List.range n).map s).dropWhile (· ≠ 0) ≠ [] := by
    intro e
    have hl := congrArg List.length (List.takeWhile_append_dropWhile (p := (· ≠ 0))
      (l := (List.range n).map s))
    rw [e, List.append_nil, List.length_map, List.length_range] at hl
    exact absurd hl (Nat.ne_of_lt h)
  have hz := List.head_dropWhile_not (· ≠ (0 : UInt8)) hd
  obtain ⟨x, l, e⟩ := List.exists_cons_of_ne_nil hd
  have hx : x = 0 := by
    simp only [e, List.head_cons] at hz
    simpa using hz
  have hl : cstr s n ++ x :: l = (List.range n).map s := by
    rw [← e]
    exact List.takeWhile_append_dropWhile
  have hg := congrArg (fun l => l[(cstr s n).length]?) hl
  simpa [h, hx, eq_comm] using hg

theorem cstr_eq {l : List UInt8} (hc : l.length < n) (h₀ : (0 : UInt8) ∉ l)
    (h : ∀ k (hk : k < l.length), s k = l[k]) (hz : s l.length = 0) : cstr s n = l := by
  have ht : ((List.range n).map s).take l.length = l := by
    apply List.ext_getElem
    · simpa using hc.le
    · intro k h₁ h₂
      simp [h k h₂]
  have hd : ((List.range n).map s).drop l.length =
      0 :: ((List.range n).map s).drop (l.length + 1) := by
    rw [List.drop_eq_getElem_cons (by simpa using hc), List.getElem_map, List.getElem_range, hz]
  have hp : ∀ a ∈ l, decide (a ≠ 0) = true := fun a ha => decide_eq_true fun e => h₀ (e ▸ ha)
  rw [cstr, ← List.take_append_drop l.length ((List.range n).map s), ht, hd,
    List.takeWhile_append_of_pos hp]
  simp

theorem strlen_cstr (h : (cstr s n).length < n) (hn : n ≤ 1002) :
    strlen s = some (cstr s n).length := by
  refine strlen_eq (apply_length_cstr h) (fun i hi => ?_) (by omega)
  rw [← getElem_cstr hi]
  exact fun e => zero_notMem_cstr (e ▸ List.getElem_mem hi)

theorem toBuf_apply {l : List UInt8} {k : ℕ} (hk : k < l.length) : toBuf l k = l[k] :=
  List.getD_eq_getElem _ _ hk

theorem strlen_toBuf {l : List UInt8} (h₀ : (0 : UInt8) ∉ l) (hc : l.length ≤ 1001) :
    strlen (toBuf l) = some l.length := by
  refine strlen_eq (by simp [toBuf]) (fun i hi => ?_) hc
  rw [toBuf_apply hi]
  exact fun e => h₀ (e ▸ List.getElem_mem hi)

/-- **`strcmp` compares strings.** -/
theorem strcmp_cstr (h : (cstr s n).length < n) (hn : n ≤ 1002) {l : List UInt8}
    (h₀ : (0 : UInt8) ∉ l) (hc : l.length ≤ 1001) :
    strcmp s (toBuf l) = true ↔ cstr s n = l := by
  rw [strcmp_iff (strlen_cstr h hn) (strlen_toBuf h₀ hc)]
  constructor
  · rintro ⟨hl, he⟩
    apply List.ext_getElem hl
    intro i h₁ h₂
    rw [getElem_cstr, he i h₁, toBuf_apply h₂]
  · rintro rfl
    refine ⟨rfl, fun i hi => ?_⟩
    rw [toBuf_apply hi, getElem_cstr]

end EitanOS
