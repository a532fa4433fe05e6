import EitanOS.Disk.Drive

/-!
# Reading and writing sectors

* `readSectors_apply`, `writeSectors_inside`, **`writeSectors_outside`**: what a read delivers and a
  write changes.
* `diskTable`: the file table on disk. **`diskTable_save`**, `loadFileTable_apply`: saving a table and
  loading it again; `diskTable_writeSectors`: writes behind the table leave it alone.
-/

namespace EitanOS

open Bytes

variable {d : Drive} {lba size k : ℕ} {src target : Buf}

theorem sectorsOf_eq (h : size ≤ 255 * 512) : sectorsOf size = (size + 511) / 512 := by
  rw [sectorsOf, if_pos (by omega)]
  exact Nat.mod_eq_of_lt (by omega)

@[simp] theorem writeSectors_sectorCount :
    (writeSectors d lba src size).sectorCount = d.sectorCount := by
  simp only [writeSectors]
  split_ifs <;> rfl

@[simp] theorem saveFileTable_sectorCount (t : FileTable) :
    (saveFileTable d t).sectorCount = d.sectorCount := writeSectors_sectorCount

theorem writeSectors_outside (hl : lba < 2 ^ 28)
    (hk : k < lba * 512 ∨ (lba + sectorsOf size) * 512 ≤ k) :
    (writeSectors d lba src size).bytes k = d.bytes k := by
  simp only [writeSectors]
  split_ifs
  · rfl
  · dsimp only
    rw [Nat.mod_eq_of_lt hl]
    exact put_outside (by rwa [← Nat.add_mul])

theorem writeSectors_inside (hs : size ≤ 255 * 512) (hd : d.sectorCount ≤ 65535)
    (hfit : lba + (size + 511) / 512 < d.sectorCount) (hk : k < size) :
    (writeSectors d lba src size).bytes (lba * 512 + k) = src k := by
  have he := sectorsOf_eq hs
  simp only [writeSectors]
  rw [if_neg (by omega), Nat.mod_eq_of_lt (a := lba) (by omega)]
  dsimp only
  rw [put_inside (by omega) (by omega), Nat.add_sub_cancel_left, if_pos hk]

theorem readSectors_apply (hs : size ≤ 255 * 512) (hd : d.sectorCount ≤ 65535)
    (hfit : lba + (size + 511) / 512 < d.sectorCount) (hk : k < size) :
    readSectors d lba target size k = d.bytes (lba * 512 + k) := by
  have he := sectorsOf_eq hs
  simp only [readSectors]
  rw [if_neg (by omega), if_pos ⟨hk, by omega⟩, Nat.mod_eq_of_lt (a := lba) (by omega)]

/-! ## The file table on disk -/

/-- The file table in sectors 1 to 20. -/
def diskTable (d : Drive) : FileTable := decodeTable fun k => d.bytes (512 + k)

theorem decodeTable_congr {b b' : Buf} {i : ℕ} (h : ∀ k < 16, b (16 * i + k) = b' (16 * i + k)) :
    decodeTable b i = decodeTable b' i := by
  have hw : ∀ o, o + 4 ≤ 16 → le32 b (16 * i + o) = le32 b' (16 * i + o) := fun o ho =>
    le32_congr fun k hk => by
      rw [Nat.add_assoc]
      exact h (o + k) (by omega)
  have h₀ := hw 0 (by omega)
  rw [Nat.add_zero] at h₀
  rw [decodeTable, decodeTable, h₀, hw 4 (by omega), hw 8 (by omega), hw 12 (by omega)]

/-- **A table is read back** from its memory. -/
theorem decodeTable_encodeTable (t : FileTable) (i : ℕ) : decodeTable (encodeTable t) i = t i := by
  have h : ∀ k < 16, (16 * i + k) / 16 = i ∧ (16 * i + k) % 16 = k ∧ (16 * i + k) % 4 = k % 4 :=
    fun k hk => by omega
  have h₁ : le32 (encodeTable t) (16 * i) = (t i).magicNumber := le32_byte32 fun k hk => by
    obtain ⟨e₁, e₂, e₃⟩ := h k (by omega)
    simp only [encodeTable, e₁, e₂, e₃, Nat.mod_eq_of_lt hk]
    rw [if_pos hk]
  have h₂ : le32 (encodeTable t) (16 * i + 4) = (t i).type := le32_byte32 fun k hk => by
    rw [Nat.add_assoc]
    obtain ⟨e₁, e₂, e₃⟩ := h (4 + k) (by omega)
    simp only [encodeTable, e₁, e₂, e₃]
    rw [if_neg (by omega), if_pos (by omega), Nat.add_mod_left, Nat.mod_eq_of_lt hk]
  have h₃ : le32 (encodeTable t) (16 * i + 8) = (t i).startSector := le32_byte32 fun k hk => by
    rw [Nat.add_assoc]
    obtain ⟨e₁, e₂, e₃⟩ := h (8 + k) (by omega)
    simp only [encodeTable, e₁, e₂, e₃]
    rw [if_neg (by omega), if_neg (by omega), if_pos (by omega)]
    congr 1
    omega
  have h₄ : le32 (encodeTable t) (16 * i + 12) = (t i).size := le32_byte32 fun k hk => by
    rw [Nat.add_assoc]
    obtain ⟨e₁, e₂, e₃⟩ := h (12 + k) (by omega)
    simp only [encodeTable, e₁, e₂, e₃]
    rw [if_neg (by omega), if_neg (by omega), if_neg (by omega)]
    congr 1
    omega
  rw [decodeTable, h₁, h₂, h₃, h₄]

variable {i : ℕ}

theorem loadFileTable_apply (junk : Junk) (h₁ : 22 ≤ d.sectorCount) (h₂ : d.sectorCount ≤ 65535)
    (hi : i < 640) : loadFileTable junk d i = diskTable d i := by
  refine decodeTable_congr fun k hk => ?_
  rw [readSectors_apply (by omega) h₂ (by omega) (by omega)]

/-- **Saving a table.** -/
theorem diskTable_save (t : FileTable) (h₁ : 22 ≤ d.sectorCount) (h₂ : d.sectorCount ≤ 65535)
    (hi : i < 640) : diskTable (saveFileTable d t) i = t i := by
  rw [← decodeTable_encodeTable t i]
  refine decodeTable_congr fun k hk => ?_
  exact @writeSectors_inside d 1 _ _ _ (by omega) h₂ (by omega) (by omega)

theorem diskTable_writeSectors (hl : 21 ≤ lba) (hl' : lba < 2 ^ 28) (hi : i < 640) :
    diskTable (writeSectors d lba src size) i = diskTable d i := by
  refine decodeTable_congr fun k hk => ?_
  exact writeSectors_outside hl' (.inl (by omega))

theorem saveFileTable_outside (t : FileTable) (hk : k < 512 ∨ 21 * 512 ≤ k) :
    (saveFileTable d t).bytes k = d.bytes k := by
  apply writeSectors_outside (by omega)
  rw [sectorsOf_eq (by omega)]
  omega

end EitanOS
