import EitanOS.Lib.Decimal
import EitanOS.Lib.Doubles
import EitanOS.Util.Strings

/-!
# Numbers as strings (`util/string.c`)

`num_to_str` counts the digits of a double and fills a new block from an index that the sign and the fraction
move; `num_to_str_no_malloc` fills a buffer from its end.

* `exec_digitCountLoop`, **`exec_digitLoop`**, **`exec_numToStr`**: the numeral of an integer below `2 ^ 53`.
* **`exec_digitsBackLoop`**, `exec_numToStrNoMalloc`: the last digits of a number, as many as fit.
* **`numbers_decimal`**: both write decimal numerals.
-/

namespace Util

open Prog Objects Decimal Doubles
open Shell (toSize toSize_natCast)

/-! ## The functions -/

/-- `double`. -/
abbrev Double := Float.Model

/-- A condition as a number. -/
def flag (p : Prop) [Decidable p] : ℤ := if p then 1 else 0

/-- `abs`. -/
def abs (num : Double) : Double := if num.lt (.ofInt 0) then num.neg else num

/-- The loop over the digits of the fraction, for the `k` rounds that are left: `fraction_digit_count` and
`no_frac_num`. -/
def fractionLoop : ℕ → ℕ → Double → ℕ × Double
  | 0, count, num => (count, num)
  | k + 1, count, num =>
    if (Float.Model.ofInt (toLong num)).beq num then (count, num)
    else fractionLoop k (count + 1) (num.mul (.ofInt 10))

/-- The loop that counts the digits of `tmp`. A `long` has at most 19. -/
def digitCountLoop : ℕ → ℕ → ℤ → Code Mem ℕ
  | 0, _, _ => failure
  | fuel + 1, count, tmp =>
    if 0 < tmp.tdiv 10 then digitCountLoop fuel (count + 1) (tmp.tdiv 10) else return count + 1

/-- The loop that writes the digits. `offset` is how far the sign, the point and the zero before it move them,
and `fraction` the number of digits behind the point. -/
def digitLoop (result : Addr) (digitCount fraction : ℕ) (isNegative offset : ℤ) :
    ℕ → ℤ → ℤ → Code Mem PUnit
  | 0, _, _ => failure
  | fuel + 1, intNum, i =>
    if intNum = 0 then return ⟨⟩
    else do
      result.store (digitCount - i - 1) (UInt8.ofNat (48 + intNum.tmod 10).toNat)
      if i + offset + 1 = fraction then do
        result.store (digitCount - (i + 1) - 1) 46
        (if intNum.tdiv 10 = 0 then result.store isNegative 48 else pure ⟨⟩ : Code Mem PUnit)
        digitLoop result digitCount fraction isNegative offset fuel (intNum.tdiv 10) (i + 1 + 1)
      else digitLoop result digitCount fraction isNegative offset fuel (intNum.tdiv 10) (i + 1)

/-- `num_to_str` for a number other than zero. -/
def numToStrNonzero (num : Double) : Code Mem Addr := do
  let isNegative := flag (num.lt (.ofInt 0) = true)
  let (fraction, noFracNum) := fractionLoop 6 0 (abs (if isNegative = 1 then num.neg else num))
  let intNum := toLong noFracNum
  let digitCount ← digitCountLoop 20 0 intNum
  let offset := isNegative + flag (0 < fraction) + flag (fraction = digitCount)
  let len := digitCount + offset + 1
  let result ← malloc (toSize len)
  result.store (len - 1) 0
  (if isNegative = 1 then result.store 0 45 else pure ⟨⟩ : Code Mem PUnit)
  digitLoop result digitCount fraction isNegative offset 20 intNum (-offset)
  return result

/-- `num_to_str`. -/
def numToStr (num : Double) : Code Mem Addr :=
  if num.beq (.ofInt 0) then do
    let result ← malloc 2
    result.store 0 48
    result.store 1 0
    return result
  else numToStrNonzero num

/-- The loop of `num_to_str_no_malloc`: where `ptr` is in the buffer at its end. -/
def digitsBackLoop (buffer : Addr) : ℕ → UInt64 → Code Mem ℕ
  | 0, _ => return 0
  | ptr + 1, n =>
    if 0 < n then do
      buffer.store ptr (UInt8.ofNat (48 + (n % 10).toNat))
      digitsBackLoop buffer ptr (n / 10)
    else return ptr + 1

/-- `num_to_str_no_malloc`. -/
def numToStrNoMalloc (num : UInt64) (buffer : Addr) (bufferSize : ℕ) : Code Mem Addr :=
  if buffer = .null ∨ bufferSize < 2 then return .null
  else do
    buffer.store ((bufferSize - 1 : ℕ) : ℤ) 0
    if num = 0 then do
      buffer.store ((bufferSize - 2 : ℕ) : ℤ) 48
      return buffer.add (bufferSize - 2)
    else do
      -- an unsigned number is never below 0
      let ptr ← digitsBackLoop buffer (bufferSize - 1) (if num < 0 then -num else num)
      if num < 0 ∧ 0 < ptr then do
        buffer.store ((ptr - 1 : ℕ) : ℤ) 45
        return buffer.add (ptr - 1)
      else return buffer.add ptr

variable {m : Mem} {a : Addr} {c n count fuel : ℕ} {r t u v w : List UInt8}

/-! ## `num_to_str` -/

theorem exec_digitCountLoop (hf : (decimal n).length ≤ fuel) :
    exec (digitCountLoop fuel count n) m = (some (count + (decimal n).length), m) := by
  induction fuel generalizing n count with
  | zero =>
    have := length_decimal_pos (n := n)
    omega
  | succ fuel ih =>
    have hdiv : (n : ℤ).tdiv 10 = (n / 10 : ℕ) := (Int.ofNat_tdiv n 10).symm
    rw [digitCountLoop, hdiv]
    rcases Nat.lt_or_ge n 10 with h | h
    · rw [if_neg (by omega), decimal_natCast_of_lt h]
      rfl
    · rw [decimal_natCast_of_le h, List.length_append, List.length_singleton] at hf ⊢
      rw [if_pos (by omega), ih (by omega)]
      congr 2
      omega

/-- **The digits of a number** are written from the last one on. -/
theorem exec_digitLoop {digitCount : ℕ} {isNegative offset i : ℤ} (h₀ : 0 < n)
    (hv : v.length = (decimal n).length) (hf : v.length < fuel) (hb : m.look c = some (u ++ v ++ r))
    (hi : digitCount - i = (u ++ v).length) (hpos : 0 ≤ i + offset) :
    exec (digitLoop (.into (.block c) 0) digitCount 0 isNegative offset fuel n i) m =
      (some ⟨⟩, m.put c (u ++ decimal n ++ r)) := by
  induction fuel generalizing n v r i m with
  | zero => omega
  | succ fuel ih =>
    have hdiv : (n : ℤ).tdiv 10 = (n / 10 : ℕ) := (Int.ofNat_tdiv n 10).symm
    have hmod : UInt8.ofNat (48 + (n : ℤ).tmod 10).toNat = digit (n % 10) := by
      rw [Int.tmod_eq_emod_of_nonneg (by omega), digit]
      congr 1
    -- the last place of the digits
    obtain ⟨w, y, rfl⟩ := List.eq_nil_or_concat' v |>.resolve_left fun h =>
      absurd length_decimal_pos (by rw [← hv, h]; simp)
    rw [List.length_append, List.length_singleton] at hv hf
    have hidx : (digitCount : ℤ) - i - 1 = ((u ++ w).length : ℕ) := by
      rw [hi, ← List.append_assoc, List.length_append, List.length_singleton]
      omega
    have hset : (u ++ (w ++ [y]) ++ r).set (u ++ w).length (digit (n % 10)) =
        u ++ w ++ digit (n % 10) :: r := by
      rw [← List.append_assoc u, List.append_assoc]
      exact set_length_append
    have hlt : c < m.size := Mem.lt_size hb
    rw [digitLoop, if_neg (by omega), hidx, hmod, hdiv, Addr.store_natCast, Nat.zero_add,
      exec_bind_some (exec_store hb (by simp)), hset, if_neg (by omega)]
    rcases Nat.lt_or_ge n 10 with h | h
    · rw [decimal_natCast_of_lt h, List.length_singleton] at hv
      obtain rfl : w = [] := List.length_eq_zero_iff.mp (by omega)
      obtain ⟨fuel, rfl⟩ := Nat.exists_eq_succ_of_ne_zero (show fuel ≠ 0 by omega)
      rw [digitLoop, if_pos (by omega), decimal_natCast_of_lt h, Nat.mod_eq_of_lt h]
      simp
    · rw [decimal_natCast_of_le h, List.length_append, List.length_singleton] at hv
      rw [ih (v := w) (r := digit (n % 10) :: r) (by omega) (by omega) (by omega)
        (Mem.look_put_self hlt) (by rw [← hidx]; omega) (by omega), Mem.put_put,
        decimal_natCast_of_le h]
      simp

/-- The sign of a numeral. -/
def sign (n : ℤ) : List UInt8 := if n < 0 then [45] else []

theorem flag_eq_one {p : Prop} [Decidable p] : flag p = 1 ↔ p := by
  simp [flag]

theorem flag_neg (n : ℤ) : flag (n < 0) = (sign n).length := by
  unfold flag sign
  split_ifs <;> rfl

theorem decimal_eq_sign_append {n : ℤ} (h₀ : n ≠ 0) : decimal n = sign n ++ decimal n.natAbs := by
  unfold sign
  split_ifs with h
  · obtain ⟨k, rfl⟩ : ∃ k : ℕ, n = -k := ⟨n.natAbs, by omega⟩
    rw [decimal_neg (by omega), Int.natAbs_neg, Int.natAbs_natCast]
    rfl
  · rw [Int.natAbs_of_nonneg (by omega)]
    rfl

theorem abs_ofInt {n : ℤ} (h₀ : n ≠ 0) (hn : n.natAbs < 2 ^ 53) :
    abs (if flag (n < 0) = 1 then Float.Model.neg (.ofInt n) else .ofInt n) = .ofInt n.natAbs := by
  have hpos : ∀ k : ℕ, k < 2 ^ 53 → abs (.ofInt k) = .ofInt k := by
    intro k hk
    rw [abs, lt_zero (by simpa using hk), decide_eq_false (by omega)]
    rfl
  simp only [flag_eq_one]
  split_ifs with h
  · rw [neg_ofInt h₀ hn, show -n = n.natAbs by omega]
    exact hpos _ hn
  · rw [show n = n.natAbs by omega]
    exact hpos _ hn

theorem fractionLoop_ofInt {n : ℤ} (hn : n.natAbs < 2 ^ 53) :
    fractionLoop 6 0 (.ofInt n) = (0, .ofInt n) := by
  rw [fractionLoop, toLong_ofInt hn, beq_self hn]
  rfl

theorem exec_frame {n : ℤ} {l : List UInt8} {d : ℕ} (hl : l.length = d + (sign n).length + 1) :
    ∃ v : List UInt8, v.length = d ∧
      exec (do
        Addr.store (.into (.block m.size) 0) ((d + (sign n).length : ℕ) : ℤ) 0
        if flag (n < 0) = 1 then Addr.store (.into (.block m.size) 0) 0 45 else pure ⟨⟩) (m.push l) =
      (some ⟨⟩, m.push (sign n ++ v ++ [0])) := by
  obtain ⟨w, y, rfl⟩ := List.eq_nil_or_concat' l |>.resolve_left fun h => absurd hl (by simp [h])
  have hw : w.length = d + (sign n).length := by simpa using hl
  rw [← hw, Addr.store_natCast, Nat.zero_add, exec_bind_some (exec_store Mem.look_push_self (by simp)),
    Mem.push_put, set_length_append]
  by_cases h : n < 0
  · rw [sign, if_pos h] at hw ⊢
    obtain ⟨x, v, rfl⟩ := List.exists_cons_of_length_eq_add_one hw
    refine ⟨v, by simpa using hw, ?_⟩
    rw [if_pos (flag_eq_one.mpr h), Addr.store_zero, exec_store Mem.look_push_self (by simp), Mem.push_put]
    rfl
  · rw [sign, if_neg h] at hw ⊢
    refine ⟨w, hw, ?_⟩
    rw [if_neg (mt flag_eq_one.mp h)]
    rfl

theorem exec_numToStrNonzero {n : ℤ} (h₀ : n ≠ 0) (hn : n.natAbs < 2 ^ 53) :
    exec (numToStrNonzero (.ofInt n)) m =
      (some (.into (.block m.size) 0), m.push (decimal n ++ [0])) := by
  have hd : 0 < (decimal n.natAbs).length := length_decimal_pos
  have hd' : (decimal n.natAbs).length ≤ 16 := (length_decimal_le_iff (by decide)).mpr (by omega)
  have hsign : (sign n).length ≤ 1 := by
    unfold sign
    split_ifs <;> simp
  obtain ⟨v, hv, hframe⟩ := exec_frame (m := m) (n := n) (d := (decimal n.natAbs).length)
    (l := fresh m ((decimal n.natAbs).length + (sign n).length + 1)) (by simp)
  have hn' : (n.natAbs : ℤ).natAbs < 2 ^ 53 := by rwa [Int.natAbs_natCast]
  have hpoint : flag (0 < (0 : ℕ)) = 0 := rfl
  have hzero : flag (0 = (decimal n.natAbs).length) = 0 := if_neg (by omega)
  have hlen : (decimal n.natAbs).length + flag (n < 0) + 1 =
      (((decimal n.natAbs).length + (sign n).length + 1 : ℕ) : ℤ) := by
    rw [flag_neg]
    omega
  rw [numToStrNonzero]
  simp only [lt_zero hn, decide_eq_true_eq, abs_ofInt h₀ hn, fractionLoop_ofInt hn', toLong_ofInt hn']
  rw [exec_bind_some (exec_digitCountLoop (by omega)), Nat.zero_add, hpoint, hzero, Int.add_zero, Int.add_zero,
    hlen, toSize_natCast (by omega), exec_bind_some (exec_malloc (by omega) (by omega)),
    Nat.cast_succ, Int.add_sub_cancel, ← bind_assoc, exec_bind_some hframe,
    exec_bind_some (exec_digitLoop (v := v) (r := [0]) (by omega) hv (by omega) Mem.look_push_self
      (by rw [List.length_append, hv, flag_neg]; omega) (by omega)), Mem.push_put, decimal_eq_sign_append h₀]
  rfl

/-- **`num_to_str` of an integer** that a double holds exactly is its numeral, in a new block of that size. -/
theorem exec_numToStr {n : ℤ} (hn : n.natAbs < 2 ^ 53) :
    exec (numToStr (.ofInt n)) m = (some (.into (.block m.size) 0), m.push (decimal n ++ [0])) := by
  rw [numToStr, beq_zero hn]
  by_cases h₀ : n = 0
  · have hone : Addr.store (.into (.block m.size) 0) 1 0 = Objects.store (.block m.size) 1 0 :=
      Addr.store_natCast (i := 1)
    rw [if_pos (decide_eq_true h₀), exec_bind_some (exec_malloc (by decide) (by decide)), Addr.store_zero,
      exec_bind_some (exec_store Mem.look_push_self (by simp)), Mem.push_put, hone,
      exec_bind_some (exec_store Mem.look_push_self (by simp)), Mem.push_put, h₀]
    rfl
  · rw [if_neg (by simpa using h₀)]
    exact exec_numToStrNonzero h₀ hn

/-! ## `num_to_str_no_malloc` -/

theorem digitsBackLoop_zero : digitsBackLoop a c 0 = return c := by
  cases c with
  | zero => rfl
  | succ c => exact if_neg (by decide)

/-- The last `k` digits. -/
def lastDigits (n k : ℕ) : List UInt8 := (decimal n).drop ((decimal n).length - k)

theorem length_lastDigits {k : ℕ} : (lastDigits n k).length = min k (decimal n).length := by
  rw [lastDigits, List.length_drop]
  omega

theorem lastDigits_suffix {k : ℕ} : lastDigits n k <:+ decimal n := List.drop_suffix _ _

theorem lastDigits_succ {k : ℕ} (h : 10 ≤ n) :
    lastDigits n (k + 1) = lastDigits (n / 10) k ++ [digit (n % 10)] := by
  rw [lastDigits, lastDigits, decimal_natCast_of_le h, List.length_append, List.length_singleton,
    Nat.add_sub_add_right, List.drop_append_of_le_length (Nat.sub_le _ _)]

/-- **The digits that fit** are written from the end of the buffer `t ++ w` on. -/
theorem exec_digitsBackLoop {n : UInt64} (h₀ : 0 < n.toNat) (hw : w.length ≤ (decimal n.toNat).length)
    (ht : t ≠ [] → w.length = (decimal n.toNat).length) (hb : m.look c = some (u ++ (t ++ w ++ r))) :
    exec (digitsBackLoop (.into (.block c) u.length) (t ++ w).length n) m =
      (some t.length, m.put c (u ++ (t ++ lastDigits n.toNat w.length ++ r))) := by
  induction w using List.reverseRecOn generalizing n r m with
  | nil =>
    obtain rfl : t = [] := by
      by_contra h
      exact absurd (ht h) length_decimal_pos.ne
    rw [List.length_nil, lastDigits, Nat.sub_zero, List.drop_length]
    exact congrArg (Prod.mk _) (Mem.put_look hb).symm
  | append_singleton w y ih =>
    rw [List.length_append, List.length_singleton] at hw ht
    have hset : (u ++ (t ++ (w ++ [y]) ++ r)).set (u ++ (t ++ w)).length (digit (n.toNat % 10)) =
        u ++ (t ++ w ++ digit (n.toNat % 10) :: r) := by
      rw [← List.append_assoc t, List.append_assoc (t ++ w), ← List.append_assoc u, List.singleton_append,
        set_length_append, List.append_assoc u]
    have hlt : c < m.size := Mem.lt_size hb
    have hdiv : (n / 10).toNat = n.toNat / 10 := UInt64.toNat_div _ _
    have hmod : UInt8.ofNat (48 + (n % 10).toNat) = digit (n.toNat % 10) :=
      congrArg (fun d => UInt8.ofNat (48 + d)) (UInt64.toNat_mod _ _)
    rw [← List.append_assoc, List.length_append, List.length_singleton, digitsBackLoop,
      if_pos (show 0 < n from UInt64.lt_iff_toNat_lt.mpr h₀), hmod, Addr.store_natCast, ← List.length_append,
      exec_bind_some (exec_store hb (by simp)), hset]
    rcases Nat.lt_or_ge n.toNat 10 with h | h
    · rw [decimal_natCast_of_lt h, List.length_singleton] at hw
      obtain rfl : w = [] := List.length_eq_zero_iff.mp (by omega)
      have hquot : n / 10 = 0 := UInt64.toNat_inj.mp (by rw [hdiv, Nat.div_eq_of_lt h]; rfl)
      have hlast : lastDigits n.toNat 1 = [digit n.toNat] := by
        rw [lastDigits, decimal_natCast_of_lt h]
        rfl
      rw [hquot, digitsBackLoop_zero, List.nil_append, List.length_singleton, hlast, Nat.mod_eq_of_lt h]
      simp
    · rw [decimal_natCast_of_le h, List.length_append, List.length_singleton] at hw ht
      rw [ih (r := digit (n.toNat % 10) :: r) (by omega) (by rw [hdiv]; omega)
        (fun h' => by rw [hdiv]; exact Nat.succ.inj (ht h')) (Mem.look_put_self hlt), Mem.put_put, hdiv,
        List.length_append, List.length_singleton, lastDigits_succ h]
      simp

/-- **`num_to_str_no_malloc`** writes the last digits in front of the end of the buffer. -/
theorem exec_numToStrNoMalloc {n : UInt64} {x : UInt8} (h₀ : 0 < (t ++ w).length)
    (hw : w.length = min (t ++ w).length (decimal n.toNat).length)
    (hb : m.look c = some (u ++ (t ++ w ++ x :: r))) :
    exec (numToStrNoMalloc n (.into (.block c) u.length) ((t ++ w).length + 1)) m =
      (some (.into (.block c) (u.length + t.length)),
        m.put c (u ++ (t ++ lastDigits n.toNat w.length ++ 0 :: r))) := by
  have hset : (u ++ (t ++ w ++ x :: r)).set (u ++ (t ++ w)).length 0 = u ++ (t ++ w ++ 0 :: r) := by
    rw [← List.append_assoc u, set_length_append, List.append_assoc]
  have hlt : c < m.size := Mem.lt_size hb
  have hargs : ¬ (Addr.into (.block c) u.length = .null ∨ (t ++ w).length + 1 < 2) := by
    rintro (h | h)
    · cases h
    · omega
  rw [numToStrNoMalloc, if_neg hargs, Nat.add_sub_cancel, Addr.store_natCast,
    ← List.length_append, exec_bind_some (exec_store hb (by simp)), hset]
  by_cases hz : n = 0
  · have hzero : decimal n.toNat = [48] := hz ▸ decimal_natCast_of_lt (by decide)
    obtain ⟨y, rfl⟩ : ∃ y, w = [y] := by
      rw [hzero, List.length_singleton] at hw
      exact List.length_eq_one_iff.mp (by omega)
    have hidx : u.length + ((t ++ [y]).length + 1 - 2) = (u ++ t).length := by simp
    have hset' : (u ++ (t ++ [y] ++ 0 :: r)).set (u ++ t).length 48 = u ++ (t ++ [48] ++ 0 :: r) := by
      rw [List.append_assoc t, ← List.append_assoc u, List.singleton_append, set_length_append]
      simp
    rw [if_pos hz, Addr.store_natCast, hidx,
      exec_bind_some (exec_store (Mem.look_put_self hlt) (by simp)), hset', Mem.put_put, lastDigits, hzero]
    have hadd : (Addr.into (.block c) u.length).add ((t ++ [y]).length + 1 - 2) =
        .into (.block c) (u.length + t.length) := by
      simp [Addr.add]
    rw [hadd]
    rfl
  · have hpos : 0 < n.toNat := Nat.pos_of_ne_zero fun h => hz (UInt64.toNat_inj.mp h)
    have hunsigned : ¬ n < 0 := by simp
    rw [if_neg hz, if_neg hunsigned, exec_bind_some (exec_digitsBackLoop hpos (by omega) ?_
      (Mem.look_put_self hlt)), if_neg (fun h => hunsigned h.1), Mem.put_put]
    · rfl
    · intro ht
      have := List.length_pos_iff.mpr ht
      rw [List.length_append] at hw
      omega

/-! ## Both functions -/

theorem exists_buffer (n : ℕ) (hv : 2 ≤ v.length) : ∃ t w x, v = t ++ w ++ [x] ∧ 0 < (t ++ w).length ∧
    w.length = min (t ++ w).length (decimal n).length := by
  rcases List.eq_nil_or_concat' v with rfl | ⟨v, x, rfl⟩
  · exact absurd hv (by decide)
  · rw [List.length_append, List.length_singleton] at hv
    refine ⟨v.take (v.length - (decimal n).length), v.drop (v.length - (decimal n).length), x, ?_, ?_, ?_⟩
    · rw [List.take_append_drop]
    · rw [List.take_append_drop]
      omega
    · rw [List.take_append_drop, List.length_drop]
      omega

theorem length_decimal_le (n : UInt64) : (decimal n.toNat).length ≤ 20 :=
  (length_decimal_le_iff (by decide)).mpr (n.toNat_lt.trans (by decide))

theorem exists_numToStrNoMalloc (n : UInt64) (hv : 2 ≤ v.length) (hb : m.look c = some (u ++ (v ++ r))) :
    ∃ t s : List UInt8, t <+: v ∧ (t ++ s).length + 1 = v.length ∧ s <:+ decimal n.toNat ∧
      s.length = min (v.length - 1) (decimal n.toNat).length ∧
      exec (numToStrNoMalloc n (.into (.block c) u.length) v.length) m =
        (some (.into (.block c) (u.length + t.length)), m.put c (u ++ (t ++ s ++ [0] ++ r))) ∧
      Text (m.put c (u ++ (t ++ s ++ [0] ++ r))) (.into (.block c) (u.length + t.length)) s := by
  obtain ⟨t, w, x, rfl, hpos, hw⟩ := exists_buffer n.toNat hv
  have hlast : (lastDigits n.toNat w.length).length = w.length := by
    rw [length_lastDigits]
    omega
  have hsize : (t ++ w ++ [x]).length = (t ++ w).length + 1 := List.length_append
  refine ⟨t, lastDigits n.toNat w.length, ?_, ?_, lastDigits_suffix, ?_, ?_, ?_⟩
  · rw [List.append_assoc]
    exact List.prefix_append _ _
  · rw [hsize, List.length_append, hlast, List.length_append]
  · rw [hsize, hlast, Nat.add_sub_cancel]
    exact hw
  · rw [hsize, exec_numToStrNoMalloc hpos hw (r := r) (x := x) (by rw [hb]; simp)]
    simp
  · rw [← List.length_append]
    refine .mk_look_append (r := r) (fun h => zero_notMem_decimal _ (lastDigits_suffix.subset h)) ?_
    rw [Mem.look_put_self (Mem.lt_size hb)]
    simp

/-- **Numbers in decimal notation.** `num_to_str` of an integer that a double holds exactly returns its numeral in
a new block, all of whose bytes it writes; `num_to_str_no_malloc` writes the last digits that fit into its buffer,
and nothing outside of it. With at least 21 bytes these are all digits, so the two agree. -/
theorem numbers_decimal :
    (∀ (n : ℤ) (m : Mem), n.natAbs < 2 ^ 53 → toLong (.ofInt n) = n ∧
      exec (numToStr (.ofInt n)) m = (some (.into (.block m.size) 0), m.push (decimal n ++ [0]))) ∧
    (∀ (n : UInt64) (m : Mem) (c : ℕ) (u v r : List UInt8), 2 ≤ v.length → m.look c = some (u ++ (v ++ r)) →
      ∃ t s : List UInt8, t <+: v ∧ (t ++ s).length + 1 = v.length ∧ s <:+ decimal n.toNat ∧
        s.length = min (v.length - 1) (decimal n.toNat).length ∧ (21 ≤ v.length → s = decimal n.toNat) ∧
        exec (numToStrNoMalloc n (.into (.block c) u.length) v.length) m =
          (some (.into (.block c) (u.length + t.length)), m.put c (u ++ (t ++ s ++ [0] ++ r))) ∧
        Text (m.put c (u ++ (t ++ s ++ [0] ++ r))) (.into (.block c) (u.length + t.length)) s) ∧
    (∀ (n : UInt64) (m : Mem) (c : ℕ) (u v r : List UInt8), n.toNat < 2 ^ 53 → 21 ≤ v.length →
      m.look c = some (u ++ (v ++ r)) →
      ∃ a b m₁ m₂ s, exec (numToStr (.ofInt n.toNat)) m = (some a, m₁) ∧ Text m₁ a s ∧
        exec (numToStrNoMalloc n (.into (.block c) u.length) v.length) m = (some b, m₂) ∧ Text m₂ b s) := by
  have hall : ∀ {n : UInt64} {s v : List UInt8}, s <:+ decimal n.toNat →
      s.length = min (v.length - 1) (decimal n.toNat).length → 21 ≤ v.length → s = decimal n.toNat := by
    intro n s v hs hl hv
    have := length_decimal_le n
    exact hs.eq_of_length (by omega)
  refine ⟨fun n m hn => ⟨toLong_ofInt hn, exec_numToStr hn⟩, fun n m c u v r hv hb => ?_,
    fun n m c u v r hn hv hb => ?_⟩
  · obtain ⟨t, s, ht, hts, hs, hl, he, hx⟩ := exists_numToStrNoMalloc n hv hb
    exact ⟨t, s, ht, hts, hs, hl, hall hs hl, he, hx⟩
  · obtain ⟨t, s, ht, hts, hs, hl, he, hx⟩ := exists_numToStrNoMalloc n (by omega) hb
    refine ⟨_, _, _, _, s, exec_numToStr (by rwa [Int.natAbs_natCast]), ?_, he, hx⟩
    rw [hall hs hl hv]
    exact .mk_look (zero_notMem_decimal _) Mem.look_push_self

theorem numbers_decimal_example :
    let m : Mem := ⟨[some (List.replicate 24 9)], fun _ _ => 7⟩
    exec (numToStr (.ofInt (-205))) m = (some (.into (.block 1) 0), m.push [45, 50, 48, 53, 0]) ∧
      (∃ t s m', s.length = 2 ∧ s <:+ decimal (205 : UInt64).toNat ∧
        exec (numToStrNoMalloc 205 (.into (.block 0) 0) 3) m = (some (.into (.block 0) t), m') ∧
        Text m' (.into (.block 0) t) s) ∧
      ∃ a b m₁ m₂ s, exec (numToStr (.ofInt (205 : UInt64).toNat)) m = (some a, m₁) ∧ Text m₁ a s ∧
        exec (numToStrNoMalloc 205 (.into (.block 0) 1) 21) m = (some b, m₂) ∧ Text m₂ b s := by
  intro m
  refine ⟨?_, ?_, numbers_decimal.2.2 205 m 0 [9] (List.replicate 21 9) [9, 9] (by decide) (by decide) rfl⟩
  · rw [(numbers_decimal.1 (-205) m (by decide)).2]
    exact congrArg (fun l => (_, m.push l)) (by decide)
  · obtain ⟨t, s, _, _, hs, hl, _, he, hx⟩ :=
      numbers_decimal.2.1 205 m 0 [] [9, 9, 9] (List.replicate 21 9) (by decide) rfl
    exact ⟨_, s, _, hl.trans (by decide), hs, he, hx⟩

end Util
