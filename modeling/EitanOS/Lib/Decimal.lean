import Mathlib.Data.List.Basic
import Mathlib.Data.UInt
import Mathlib.Tactic.Common

/-!
# Decimal numerals

* `decimal n`: the bytes of the decimal numeral of an integer.
* **`decimal_natCast_of_le`**: a numeral is that of `n / 10` and its last digit.
* `length_decimal_le_iff`: how many digits a number has.
-/

namespace Decimal

/-- The bytes of a text. -/
def ascii (s : String) : List UInt8 := s.toList.map fun c => UInt8.ofNat c.toNat

/-- The decimal numeral of an integer. -/
def decimal (n : ℤ) : List UInt8 := ascii (toString n)

/-- The digit `d`. -/
def digit (d : ℕ) : UInt8 := UInt8.ofNat (48 + d)

variable {n k : ℕ}

theorem decimal_natCast : decimal n = (Nat.toDigits 10 n).map fun c => UInt8.ofNat c.toNat := by
  show (Nat.repr n).toList.map _ = _
  rw [Nat.toList_repr]

theorem ofNat_digitChar (h : n < 10) : UInt8.ofNat (Nat.digitChar n).toNat = digit n := by
  have hall : ∀ d < 10, UInt8.ofNat (Nat.digitChar d).toNat = digit d := by decide
  exact hall n h

theorem decimal_natCast_of_lt (h : n < 10) : decimal n = [digit n] := by
  rw [decimal_natCast, Nat.toDigits_of_lt_base h, List.map_singleton, ofNat_digitChar h]

/-- **The last digit** of a numeral. -/
theorem decimal_natCast_of_le (h : 10 ≤ n) : decimal n = decimal (n / 10 : ℕ) ++ [digit (n % 10)] := by
  rw [decimal_natCast, Nat.toDigits_of_base_le (by decide) h, List.map_append, ← decimal_natCast,
    List.map_singleton, ofNat_digitChar (Nat.mod_lt _ (by decide))]

theorem decimal_neg (h : 0 < n) : decimal (-n) = 45 :: decimal n := by
  obtain ⟨k, rfl⟩ := Nat.exists_eq_succ_of_ne_zero h.ne'
  show ascii ("-" ++ Nat.repr (k + 1)) = _
  rw [ascii, String.toList_append, List.map_append]
  rfl

theorem length_decimal_le_iff (h : 0 < k) : (decimal n).length ≤ k ↔ n < 10 ^ k := by
  rw [decimal_natCast, List.length_map, Nat.length_toDigits_le_iff (by decide) h]

theorem length_decimal_pos : 0 < (decimal n).length := by
  rw [decimal_natCast, List.length_map]
  exact List.length_pos_iff.mpr Nat.toDigits_ne_nil

theorem digit_ne_zero (h : n < 10) : digit n ≠ 0 := by
  have hall : ∀ d < 10, digit d ≠ 0 := by decide
  exact hall n h

theorem zero_notMem_decimal_natCast : (0 : UInt8) ∉ decimal n := by
  induction n using Nat.strong_induction_on with
  | _ n ih =>
    rcases Nat.lt_or_ge n 10 with h | h
    · rw [decimal_natCast_of_lt h, List.mem_singleton]
      exact (digit_ne_zero h).symm
    · rw [decimal_natCast_of_le h, List.mem_append, List.mem_singleton, not_or]
      exact ⟨ih _ (by omega), (digit_ne_zero (Nat.mod_lt _ (by decide))).symm⟩

theorem zero_notMem_decimal (n : ℤ) : (0 : UInt8) ∉ decimal n := by
  rcases lt_or_ge n 0 with h | h
  · obtain ⟨k, rfl⟩ : ∃ k : ℕ, n = -k := ⟨n.natAbs, by omega⟩
    rw [decimal_neg (by omega), List.mem_cons, not_or]
    exact ⟨by decide, zero_notMem_decimal_natCast⟩
  · obtain ⟨k, rfl⟩ := Int.eq_ofNat_of_zero_le h
    exact zero_notMem_decimal_natCast

example : decimal (-205) = [45, 50, 48, 53] := by decide

end Decimal
