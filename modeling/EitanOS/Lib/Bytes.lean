import Mathlib.Data.UInt
import Mathlib.Tactic.Common

/-!
# Byte buffers

* `Buf`: memory from some address on. `put b o src n`: `n` bytes of `src` copied to offset `o`.
* `le16`, `le32`, `le64`: little-endian words.
* `byte16`, `byte32`: the bytes of a word; `byte16_le16_zero`, `byte16_le16_one`, **`le32_byte32`**:
  reading them back.
-/

namespace Bytes

/-- Bytes by offset. -/
abbrev Buf := ℕ → UInt8

/-- The little-endian word at offset `o`. -/
def le32 (b : Buf) (o : ℕ) : UInt32 :=
  UInt32.ofNat ((b o).toNat + 256 * (b (o + 1)).toNat + 65536 * (b (o + 2)).toNat +
    16777216 * (b (o + 3)).toNat)

/-- The little-endian 16-bit word at offset `o`. -/
def le16 (b : Buf) (o : ℕ) : UInt16 := UInt16.ofNat ((b o).toNat + 256 * (b (o + 1)).toNat)

/-- The little-endian 64-bit word at offset `o`. -/
def le64 (b : Buf) (o : ℕ) : UInt64 :=
  UInt64.ofNat ((le32 b o).toNat + 2 ^ 32 * (le32 b (o + 4)).toNat)

/-- The `k`-th byte of a word. -/
def byte32 (v : UInt32) (k : ℕ) : UInt8 := UInt8.ofNat (v.toNat / 256 ^ k)

/-- The `k`-th byte of a 16-bit word. -/
def byte16 (v : UInt16) (k : ℕ) : UInt8 := UInt8.ofNat (v.toNat / 256 ^ k)

/-- `memcpy(b + o, src, n)`. -/
def put (b : Buf) (o : ℕ) (src : Buf) (n : ℕ) : Buf :=
  fun k => if o ≤ k ∧ k < o + n then src (k - o) else b k

variable {b b' src : Buf} {o n k : ℕ}

theorem toNat_byte32 (v : UInt32) (k : ℕ) : (byte32 v k).toNat = v.toNat / 256 ^ k % 256 := by
  rw [byte32, UInt8.toNat_ofNat']

/-- **A word is read back** from its bytes. -/
theorem le32_byte32 {v : UInt32} (h : ∀ k < 4, b (o + k) = byte32 v k) : le32 b o = v := by
  have h₀ := h 0 (by omega)
  have h₁ := h 1 (by omega)
  have h₂ := h 2 (by omega)
  have h₃ := h 3 (by omega)
  rw [Nat.add_zero] at h₀
  have hv := v.toNat_lt
  rw [le32, h₀, h₁, h₂, h₃, ← UInt32.toNat_inj, UInt32.toNat_ofNat']
  simp only [toNat_byte32]
  omega

theorem toNat_le16 (b : Buf) (o : ℕ) : (le16 b o).toNat = (b o).toNat + 256 * (b (o + 1)).toNat := by
  have h₀ := (b o).toNat_lt
  have h₁ := (b (o + 1)).toNat_lt
  rw [le16, UInt16.toNat_ofNat']
  omega

theorem byte16_le16_zero : byte16 (le16 b o) 0 = b o := by
  have h₀ := (b o).toNat_lt
  rw [byte16, toNat_le16, ← UInt8.toNat_inj, UInt8.toNat_ofNat']
  omega

theorem byte16_le16_one : byte16 (le16 b o) 1 = b (o + 1) := by
  have h₀ := (b o).toNat_lt
  have h₁ := (b (o + 1)).toNat_lt
  rw [byte16, toNat_le16, ← UInt8.toNat_inj, UInt8.toNat_ofNat']
  omega

theorem le32_congr (h : ∀ k < 4, b (o + k) = b' (n + k)) : le32 b o = le32 b' n := by
  have h₀ := h 0 (by omega)
  rw [Nat.add_zero, Nat.add_zero] at h₀
  rw [le32, le32, h₀, h 1 (by omega), h 2 (by omega), h 3 (by omega)]

theorem put_inside (h₁ : o ≤ k) (h₂ : k < o + n) : put b o src n k = src (k - o) :=
  if_pos ⟨h₁, h₂⟩

theorem put_outside (h : k < o ∨ o + n ≤ k) : put b o src n k = b k :=
  if_neg fun h' => by omega

end Bytes
