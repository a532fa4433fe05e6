import EitanOS.Disk.PathStrings

/-!
# Strings of any length

Past 1001 characters the `-1` of `strlen` goes on as a length, a size and an index. What the string functions
and the run system call (`process/interrupts.c`) then do with it differs from one to the next.

* `exec_strConcat_long_left`, `exec_strConcat_long_right`, `exec_copyPath_long`: what happens to long strings.
* **`string_helpers_right_iff`**: each of them is right for exactly the strings that are not too long; two long
  strings are equal for `strcmp`.
-/

namespace Util

open Prog Objects
open Shell (toSize)

/-- How the run system call copies the path at `arg1` to the kernel's heap. -/
def copyPath (arg₁ : Addr) : Code Mem Addr := do
  copyOf arg₁ (toSize (← strlen arg₁))

/-- The run system call up to the lookup of the file. `filesystem_read_file_metadata` first rejects a path
that is not valid; then there is no more than the copy to free. -/
def runPath (arg₁ : Addr) : Code Mem (Option Addr) := do
  let path ← copyPath arg₁
  if ← isValidPath path then return some path
  else do
    path.free
    return none

/-- The call returns a new block with the string `s`, and writes nothing else. -/
def Makes (f : Code Mem Addr) (m : Mem) (s : List UInt8) : Prop :=
  ∃ l, exec f m = (some (.into (.block m.size) 0), m.push l) ∧ Text (m.push l) (.into (.block m.size) 0) s

variable {m : Mem} {a b : Addr} {f : Code Mem Addr} {s t : List UInt8}

theorem Makes.of_exec (h₀ : 0 ∉ s)
    (h : exec f m = (some (.into (.block m.size) 0), m.push (s ++ [0]))) : Makes f m s :=
  ⟨_, h, .mk_look h₀ Mem.look_push_self⟩

theorem not_makes_of_none (h : (exec f m).1 = none) : ¬ Makes f m s := by
  rintro ⟨l, he, -⟩
  rw [he] at h
  exact absurd h nofun

theorem not_makes_of_null (h : exec f m = (some .null, m)) : ¬ Makes f m s := by
  rintro ⟨l, he, -⟩
  rw [h] at he
  exact absurd (Option.some.inj (congrArg Prod.fst he)) nofun

/-! ## `str_concat` -/

theorem exec_strConcat_long_left (ha : Text m a s) (hb : Text m b t) (hs : 1001 < s.length) :
    exec (strConcat a b) m = (some .null, m) ∨ (exec (strConcat a b) m).1 = none := by
  have hsl : lengthOrError s = -1 := if_neg (by omega)
  rw [strConcat, exec_bind_some (exec_strlen ha), exec_bind_some (exec_strlen hb), hsl]
  by_cases ht : t.length ≤ 1001
  · have htl : lengthOrError t = t.length := if_pos ht
    have hsize : toSize (-1 + (t.length : ℤ) + 1) = t.length := by
      unfold toSize
      omega
    rw [htl, hsize]
    cases t with
    | nil => exact .inl rfl
    | cons x t =>
      right
      have hload := hb.push (l := fresh m (x :: t).length) |>.load (i := 0) (by simp)
      rw [exec_bind_some (exec_malloc (by simp) (by omega)), if_neg (by simp), Int.toNat_natCast]
      rw [exec_bind_some (show exec ((List.range (-1 : ℤ).toNat).forM _) _ = (some ⟨⟩, _) from rfl),
        exec_bind_none (exec_forM_range_none (g := fun _ => m.push (fresh m (x :: t).length)) (k := 0)
          (fun i hi => absurd hi (Nat.not_lt_zero i)) (by simp)
          (by rw [exec_bind_some hload]; rfl))]
  · have htl : lengthOrError t = -1 := if_neg ht
    have hnew : exec (malloc (toSize (-1 + -1 + 1))) m = (some (.into (.block m.size) 0), m.push []) := rfl
    right
    rw [htl, exec_bind_some hnew]
    rfl

theorem exec_strConcat_long_right (ha : Text m a s) (hb : Text m b t) (hs : s.length ≤ 1001)
    (ht : 1001 < t.length) : exec (strConcat a b) m =
      if s = [] then (some .null, m) else (some (.into (.block m.size) 0), m.push (s.dropLast ++ [0])) := by
  have hsl : lengthOrError s = s.length := if_pos hs
  have htl : lengthOrError t = -1 := if_neg (by omega)
  have hsize : toSize ((s.length : ℤ) + -1 + 1) = s.length := by
    unfold toSize
    omega
  rw [strConcat, exec_bind_some (exec_strlen ha), exec_bind_some (exec_strlen hb), hsl, htl, hsize]
  split_ifs with hnil
  · rw [hnil]
    rfl
  · have hpos := List.length_pos_iff.mpr hnil
    have hlt : ∀ l, m.size < (m.push l).size := fun l => by simp
    have hfirst := exec_forM_store a.load s 0 (Mem.look_push_self (m := m) (l := fresh m s.length))
      (fun i hi l' => (ha.push.put (hlt _) ha.base_ne_size).load hi) (by simp)
    have hlast : (s.length : ℤ) + -1 = ((s.length - 1 : ℕ) : ℤ) := by omega
    simp only [Nat.zero_add, List.take_zero, List.nil_append, Mem.push_put,
      List.drop_eq_nil_of_le (Nat.le_of_eq length_fresh), List.append_nil] at hfirst
    rw [exec_bind_some (exec_malloc hpos (by omega)), if_neg (by simp), hlast]
    simp only [Int.toNat_natCast, Addr.store_natCast, Nat.zero_add]
    rw [exec_bind_some hfirst,
      exec_bind_some (show exec ((List.range (-1 : ℤ).toNat).forM _) _ = (some ⟨⟩, _) from rfl),
      exec_bind_some (exec_store Mem.look_push_self (by omega)), Mem.push_put]
    have hset : s.set (s.length - 1) 0 = s.dropLast ++ [0] := by
      obtain ⟨u, x, rfl⟩ := List.eq_nil_or_concat s |>.resolve_left hnil
      simp [List.set_append_right]
    rw [hset]
    rfl

theorem makes_strConcat_iff (ha : Text m a s) (hb : Text m b t) :
    Makes (strConcat a b) m (s ++ t) ↔ s.length ≤ 1001 ∧ t.length ≤ 1001 := by
  constructor
  · intro h
    by_contra hlong
    rcases Nat.lt_or_ge 1001 s.length with hs | hs
    · rcases exec_strConcat_long_left ha hb hs with hnull | hnone
      · exact not_makes_of_null hnull h
      · exact not_makes_of_none hnone h
    · have he := exec_strConcat_long_right ha hb hs (by omega)
      by_cases hnil : s = []
      · rw [if_pos hnil] at he
        exact not_makes_of_null he h
      · rw [if_neg hnil] at he
        obtain ⟨l, he', htext⟩ := h
        rw [he] at he'
        have hmem : m.push (s.dropLast ++ [0]) = m.push l := congrArg Prod.snd he'
        rw [← hmem] at htext
        -- the block holds the first string without its last character
        have hshort : Text (m.push (s.dropLast ++ [0])) (.into (.block m.size) 0) s.dropLast :=
          .mk_look (fun hz => ha.zero_notMem (List.mem_of_mem_dropLast hz)) Mem.look_push_self
        have hlen := congrArg List.length (htext.unique hshort)
        rw [List.length_append, List.length_dropLast] at hlen
        have hpos := List.length_pos_iff.mpr hnil
        omega
  · rintro ⟨hs, ht⟩
    refine .of_exec ?_ (exec_strConcat ha hb hs ht)
    simpa using ⟨ha.zero_notMem, hb.zero_notMem⟩

/-! ## The other functions -/

theorem makes_strdup_iff (ha : Text m a s) : Makes (strdup a) m s ↔ s.length ≤ 1001 := by
  constructor
  · intro h
    by_contra hlong
    exact not_makes_of_null (exec_strdup_long ha (by omega)) h
  · exact fun hs => .of_exec ha.zero_notMem (exec_strdup ha hs)

theorem strcmp_right_iff (ha : Text m a s) (hb : Text m b t) :
    (∃ r, exec (strcmp a b) m = (some r, m) ∧ (r = true ↔ s = t)) ↔
      s.length ≤ 1001 ∨ t.length ≤ 1001 ∨ s = t := by
  have he := exec_strcmp ha hb
  constructor
  · rintro ⟨r, hr, hiff⟩
    rw [he] at hr
    rw [← Option.some.inj (congrArg Prod.fst hr), decide_eq_true_eq] at hiff
    by_contra hlong
    rw [not_or, not_or, Nat.not_le, Nat.not_le] at hlong
    exact hlong.2.2 (hiff.mp (.inr ⟨hlong.1, hlong.2.1⟩))
  · intro h
    refine ⟨_, he, ?_⟩
    rw [decide_eq_true_eq]
    constructor
    · rintro (e | ⟨hs, ht⟩)
      · exact e
      · exact (h.resolve_left (Nat.not_le.mpr hs)).resolve_left (Nat.not_le.mpr ht)
    · exact Or.inl

theorem exec_copyPath (ha : Text m a s) (hs : s.length ≤ 1001) :
    exec (copyPath a) m = (some (.into (.block m.size) 0), m.push (s ++ [0])) := by
  have hlen : lengthOrError s = s.length := if_pos hs
  obtain ⟨r, e⟩ := ha.view
  rw [copyPath, exec_bind_some (exec_strlen ha), hlen, Shell.toSize_natCast (by omega),
    exec_copyOf e (by simp) (by omega), List.take_left]

theorem exec_copyPath_long (ha : Text m a s) (hs : 1001 < s.length) : exec (copyPath a) m = (none, m) := by
  have hlen : lengthOrError s = -1 := if_neg (by omega)
  have hsize : toSize (-1) = 2 ^ 64 - 1 := rfl
  have hnull : exec (malloc ((2 ^ 64 - 1 + 1) % 2 ^ 64)) m = (some .null, m) := rfl
  obtain ⟨r, e⟩ := ha.view
  cases s with
  | nil => exact absurd hs (by simp)
  | cons x s =>
    rw [copyPath, exec_bind_some (exec_strlen ha), hlen, hsize, copyOf, exec_bind_some hnull,
      exec_bind_none (exec_memcpy_null e (by omega))]

theorem run_right_iff (ha : Text m a s) :
    (Makes (copyPath a) m s ∨ ∃ m', exec (runPath a) m = (some none, m')) ↔ s.length ≤ 1001 := by
  constructor
  · intro h
    by_contra hlong
    have hnone := exec_copyPath_long ha (by omega)
    rcases h with h | ⟨m', h⟩
    · exact not_makes_of_none (congrArg Prod.fst hnone) h
    · rw [runPath, exec_bind_none hnone] at h
      exact absurd (congrArg Prod.fst h) nofun
  · exact fun hs => .inl (.of_exec ha.zero_notMem (exec_copyPath ha hs))

/-- **String helpers at every length.** For any two strings: `strcmp` tells whether they are equal unless both
are too long and differ; `strdup`, `str_concat` and the copy of the run system call make the right string, and
write nothing else, exactly when their strings have at most 1001 characters. The call with a longer path is
not rejected. -/
theorem string_helpers_right_iff (m : Mem) (a b : Addr) (s t : List UInt8) (ha : Text m a s) (hb : Text m b t) :
    ((∃ r, exec (strcmp a b) m = (some r, m) ∧ (r = true ↔ s = t)) ↔
      s.length ≤ 1001 ∨ t.length ≤ 1001 ∨ s = t) ∧
    (Makes (strdup a) m s ↔ s.length ≤ 1001) ∧
    (Makes (strConcat a b) m (s ++ t) ↔ s.length ≤ 1001 ∧ t.length ≤ 1001) ∧
    ((Makes (copyPath a) m s ∨ ∃ m', exec (runPath a) m = (some none, m')) ↔ s.length ≤ 1001) :=
  ⟨strcmp_right_iff ha hb, makes_strdup_iff ha, makes_strConcat_iff ha hb, run_right_iff ha⟩

theorem string_helpers_right_short :
    Makes (strConcat (.into (.lit [47, 97]) 0) (.into (.lit [98]) 0)) ⟨[], fun _ _ => 7⟩ [47, 97, 98] ∧
      Makes (strdup (.into (.lit [47, 97]) 0)) ⟨[], fun _ _ => 7⟩ [47, 97] :=
  have h := string_helpers_right_iff ⟨[], fun _ _ => 7⟩ (.into (.lit [47, 97]) 0) (.into (.lit [98]) 0)
    [47, 97] [98] (.lit (by decide)) (.lit (by decide))
  ⟨h.2.2.1.mpr (by decide), h.2.1.mpr (by decide)⟩

/-- **Two strings of 1002 characters that differ** are equal for `strcmp`; the copy that `strdup` makes of the
first is null, and the run system call with it as a path writes to null. -/
theorem long_strings_not_right :
    let m : Mem := ⟨[], fun _ _ => 7⟩
    let s := List.replicate 1002 (97 : UInt8)
    let t := List.replicate 1002 (98 : UInt8)
    s ≠ t ∧ exec (strcmp (.into (.lit s) 0) (.into (.lit t) 0)) m = (some true, m) ∧
      exec (strdup (.into (.lit s) 0)) m = (some .null, m) ∧
      exec (runPath (.into (.lit s) 0)) m = (none, m) := by
  intro m s t
  have hs : Text m (.into (.lit s) 0) s := .lit fun h => absurd (List.eq_of_mem_replicate h) (by decide)
  have ht : Text m (.into (.lit t) 0) t := .lit fun h => absurd (List.eq_of_mem_replicate h) (by decide)
  have hsl : s.length = 1002 := List.length_replicate
  have htl : t.length = 1002 := List.length_replicate
  refine ⟨fun e => ?_, ?_, exec_strdup_long hs (by omega), ?_⟩
  · have hmem : (97 : UInt8) ∈ t := e ▸ List.mem_replicate.mpr ⟨by decide, rfl⟩
    exact absurd (List.eq_of_mem_replicate hmem) (by decide)
  · rw [exec_strcmp hs ht, decide_eq_true (.inr (by omega))]
  · rw [runPath, exec_bind_none (exec_copyPath_long hs (by omega))]

end Util
