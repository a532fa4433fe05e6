import EitanOS.Disk.Delete
import EitanOS.Disk.Search
import EitanOS.Lib.Runs

/-!
# Sector transfers, word by word

`read_sectors` and `write_sectors` exchange every sector with the drive as 256 little-endian words. The
drive has no end of its own: the loops run for as many words as the command asks for.

* `Pio.readSectors`, `Pio.writeSectors`: the loops of the source. `readUpTo`, `writeUpTo`: the state
  after a number of words.
* **`Pio.readSectors_eq`**, **`Pio.writeSectors_eq`**: what the loops leave behind is what `readSectors`
  and `writeSectors` say.
* **`sectors_round_trip`**: what is written is read back, and nothing else changes.
* **`read_stays_inside_iff`**: a read stores past its target exactly if it moves an odd number of bytes.
-/

namespace EitanOS

open Bytes Runs

/-- `t[i] = v` for an array of 16-bit words. -/
def putWord (b : Buf) (i : ℕ) (v : UInt16) : Buf := put b (i * 2) (byte16 v) 2

/-- `io_inw(ATA_DATA)`: word `i` of sector `n`. -/
def Drive.word (d : Drive) (n i : ℕ) : UInt16 := le16 d.bytes (n * 512 + i * 2)

/-- `io_outw(ATA_DATA, v)`: word `i` of sector `n`. -/
def Drive.setWord (d : Drive) (n i : ℕ) (v : UInt16) : Drive :=
  { d with bytes := putWord d.bytes (n * 256 + i) v }

namespace Pio

/-- The body of the inner loop of `read_sectors`. -/
def readWord (d : Drive) (lba size j : ℕ) (t : Buf) (i : ℕ) : Buf :=
  let wordIdx := j * 256 + i
  let byteIdx := wordIdx * 2
  let data := d.word (lba + j) i
  if byteIdx < size then
    if size ≤ byteIdx + 1 then putWord t wordIdx (data &&& 0xFF) else putWord t wordIdx data
  else t

/-- `read_sectors(lba, target, size)`: the target afterwards. The drive is given 28 bits of `lba`. -/
def readSectors (d : Drive) (lba : ℕ) (target : Buf) (size : ℕ) : Buf :=
  let count := sectorsOf size
  if count < 1 ∨ d.sectorCount ≤ (lba + count) % 2 ^ 32 then target
  else (List.range count).foldl (fun t j =>
    (List.range 256).foldl (readWord d (lba % 2 ^ 28) size j) t) target

/-- The word that the inner loop of `write_sectors` hands to the drive. -/
def sourceWord (src : Buf) (size wordIdx : ℕ) : UInt16 :=
  let byteIdx := wordIdx * 2
  if byteIdx < size then
    if size ≤ byteIdx + 1 then (src byteIdx).toUInt16 else le16 src byteIdx
  else 0

/-- The body of the inner loop of `write_sectors`. -/
def writeWord (lba : ℕ) (src : Buf) (size j : ℕ) (d : Drive) (i : ℕ) : Drive :=
  d.setWord (lba + j) i (sourceWord src size (j * 256 + i))

/-- `write_sectors(lba, src, size)`. -/
def writeSectors (writable : Bool) (d : Drive) (lba : ℕ) (src : Buf) (size : ℕ) : Drive :=
  let count := sectorsOf size
  if writable = false ∨ count < 1 ∨ d.sectorCount ≤ (lba + count) % 2 ^ 32 then d
  else (List.range count).foldl (fun d j =>
    (List.range 256).foldl (writeWord (lba % 2 ^ 28) src size j) d) d

end Pio

variable {d : Drive} {lba size n i j k : ℕ} {b src target : Buf} {v : UInt16}

/-! ## Words and bytes -/

theorem putWord_apply : putWord b i v k =
    if k = i * 2 then byte16 v 0 else if k = i * 2 + 1 then byte16 v 1 else b k := by
  unfold putWord put
  by_cases h₀ : k = i * 2
  · simp [h₀]
  · by_cases h₁ : k = i * 2 + 1
    · simp [h₁]
    · rw [if_neg h₀, if_neg h₁, if_neg (by omega)]

theorem byte16_and_zero : byte16 (v &&& 0xFF) 0 = byte16 v 0 := by
  have hv : (v &&& 0xFF).toNat = v.toNat % 2 ^ 8 := by
    rw [UInt16.toNat_and]
    exact Nat.and_two_pow_sub_one_eq_mod v.toNat 8
  rw [byte16, byte16, hv, ← UInt8.toNat_inj, UInt8.toNat_ofNat', UInt8.toNat_ofNat']
  omega

theorem byte16_and_one : byte16 (v &&& 0xFF) 1 = 0 := by
  have hv : (v &&& 0xFF).toNat = v.toNat % 2 ^ 8 := by
    rw [UInt16.toNat_and]
    exact Nat.and_two_pow_sub_one_eq_mod v.toNat 8
  rw [byte16, hv, ← UInt8.toNat_inj, UInt8.toNat_ofNat']
  show v.toNat % 2 ^ 8 / 256 ^ 1 % 2 ^ 8 = 0
  omega

theorem byte16_toUInt16_zero (x : UInt8) : byte16 x.toUInt16 0 = x := by
  rw [byte16, ← UInt8.toNat_inj, UInt8.toNat_ofNat', UInt8.toNat_toUInt16]
  have := x.toNat_lt
  omega

theorem byte16_toUInt16_one (x : UInt8) : byte16 x.toUInt16 1 = 0 := by
  rw [byte16, ← UInt8.toNat_inj, UInt8.toNat_ofNat', UInt8.toNat_toUInt16]
  have := x.toNat_lt
  show x.toNat / 256 ^ 1 % 2 ^ 8 = 0
  omega

/-! ## Reading -/

namespace Pio

/-- The target after `n` words. -/
def readUpTo (d : Drive) (lba size : ℕ) (t : Buf) (n : ℕ) : Buf := fun k =>
  if k < size ∧ k < n * 2 then d.bytes (lba * 512 + k)
  else if k = size ∧ size % 2 = 1 ∧ k < n * 2 then 0
  else t k

theorem readUpTo_succ_of_ne {t : Buf} (h₀ : k ≠ n * 2) (h₁ : k ≠ n * 2 + 1) :
    readUpTo d lba size t (n + 1) k = readUpTo d lba size t n k := by
  have hlt : k < (n + 1) * 2 ↔ k < n * 2 := by omega
  simp only [readUpTo, hlt]

/-- **One word** of a read. -/
theorem readWord_readUpTo (t : Buf) :
    readWord d lba size j (readUpTo d lba size t (j * 256 + i)) i =
      readUpTo d lba size t (j * 256 + (i + 1)) := by
  have hpos : (lba + j) * 512 + i * 2 = lba * 512 + (j * 256 + i) * 2 := by omega
  unfold readWord Drive.word
  dsimp only
  rw [hpos, ← Nat.add_assoc]
  obtain ⟨w, hw⟩ : ∃ w, w = j * 256 + i := ⟨_, rfl⟩
  rw [← hw]
  funext k
  split_ifs with hlt hlast
  · -- the last byte of an odd size: the byte after it is cleared
    rw [putWord_apply, byte16_and_zero, byte16_and_one, byte16_le16_zero]
    split_ifs with h₀ h₁
    · rw [readUpTo, if_pos ⟨by omega, by omega⟩, h₀]
    · rw [readUpTo, if_neg (by omega), if_pos ⟨by omega, by omega, by omega⟩]
    · exact (readUpTo_succ_of_ne h₀ h₁).symm
  · rw [putWord_apply, byte16_le16_zero, byte16_le16_one]
    split_ifs with h₀ h₁
    · rw [readUpTo, if_pos ⟨by omega, by omega⟩, h₀]
    · rw [readUpTo, if_pos ⟨by omega, by omega⟩, h₁, Nat.add_assoc]
    · exact (readUpTo_succ_of_ne h₀ h₁).symm
  · have h₁ : k < size ∧ k < (w + 1) * 2 ↔ k < size ∧ k < w * 2 := by omega
    have h₂ : k = size ∧ size % 2 = 1 ∧ k < (w + 1) * 2 ↔ k = size ∧ size % 2 = 1 ∧ k < w * 2 := by omega
    simp only [readUpTo, h₁, h₂]

theorem foldl_readWord_sector (t : Buf) (n : ℕ) :
    (List.range n).foldl (readWord d lba size j) (readUpTo d lba size t (j * 256)) =
      readUpTo d lba size t (j * 256 + n) := by
  have h := foldl_range (n := n) (f := fun i => readUpTo d lba size t (j * 256 + i)) fun _ _ =>
    readWord_readUpTo t
  rwa [Nat.add_zero] at h

theorem foldl_readWord (t : Buf) (count : ℕ) :
    (List.range count).foldl (fun t j => (List.range 256).foldl (readWord d lba size j) t) t =
      readUpTo d lba size t (count * 256) := by
  have h₀ : t = readUpTo d lba size t (0 * 256) := by
    funext k
    simp [readUpTo]
  conv_lhs => rw [h₀]
  refine foldl_range (f := fun j => readUpTo d lba size t (j * 256)) fun j _ => ?_
  rw [foldl_readWord_sector, Nat.add_one_mul]

/-- **A read leaves what `readSectors` says.** -/
theorem readSectors_eq : readSectors d lba target size = EitanOS.readSectors d lba target size := by
  unfold readSectors EitanOS.readSectors
  dsimp only
  split_ifs
  · rfl
  · rw [foldl_readWord]
    funext k
    simp only [readUpTo, Nat.mul_assoc, Nat.reduceMul]

/-! ## Writing -/

/-- The drive after `n` words. -/
def writeUpTo (lba : ℕ) (src : Buf) (size : ℕ) (d : Drive) (n : ℕ) : Drive :=
  { d with bytes := put d.bytes (lba * 512) (fun k => if k < size then src k else 0) (n * 2) }

theorem byte16_sourceWord_zero : byte16 (sourceWord src size n) 0 =
    if n * 2 < size then src (n * 2) else 0 := by
  unfold sourceWord
  dsimp only
  split_ifs with hlt hlast
  · rw [byte16_toUInt16_zero]
  · rw [byte16_le16_zero]
  · rfl

theorem byte16_sourceWord_one : byte16 (sourceWord src size n) 1 =
    if n * 2 + 1 < size then src (n * 2 + 1) else 0 := by
  unfold sourceWord
  dsimp only
  split_ifs with hlt hlast h h h
  · omega
  · rw [byte16_toUInt16_one]
  · rw [byte16_le16_one]
  · omega
  · omega
  · rfl

/-- **One word** of a write. -/
theorem writeWord_writeUpTo :
    writeWord lba src size j (writeUpTo lba src size d (j * 256 + i)) i =
      writeUpTo lba src size d (j * 256 + (i + 1)) := by
  have hpos : (lba + j) * 256 + i = lba * 256 + (j * 256 + i) := by omega
  unfold writeWord Drive.setWord writeUpTo
  dsimp only
  rw [hpos, ← Nat.add_assoc (j * 256) i 1]
  obtain ⟨w, hw⟩ : ∃ w, w = j * 256 + i := ⟨_, rfl⟩
  rw [← hw]
  congr 1
  funext k
  rw [putWord_apply, byte16_sourceWord_zero, byte16_sourceWord_one]
  by_cases h₀ : k = (lba * 256 + w) * 2
  · rw [if_pos h₀, put_inside (by omega) (by omega), show k - lba * 512 = w * 2 by omega]
  · rw [if_neg h₀]
    by_cases h₁ : k = (lba * 256 + w) * 2 + 1
    · rw [if_pos h₁, put_inside (by omega) (by omega), show k - lba * 512 = w * 2 + 1 by omega]
    · rw [if_neg h₁]
      have hin : lba * 512 ≤ k ∧ k < lba * 512 + (w + 1) * 2 ↔
          lba * 512 ≤ k ∧ k < lba * 512 + w * 2 := by omega
      simp only [put, hin]

theorem foldl_writeWord_sector (n : ℕ) :
    (List.range n).foldl (writeWord lba src size j) (writeUpTo lba src size d (j * 256)) =
      writeUpTo lba src size d (j * 256 + n) := by
  have h := foldl_range (n := n) (f := fun i => writeUpTo lba src size d (j * 256 + i)) fun _ _ =>
    writeWord_writeUpTo
  rwa [Nat.add_zero] at h

theorem foldl_writeWord (count : ℕ) :
    (List.range count).foldl (fun d j => (List.range 256).foldl (writeWord lba src size j) d) d =
      writeUpTo lba src size d (count * 256) := by
  have h₀ : d = writeUpTo lba src size d (0 * 256) := by
    have hb : put d.bytes (lba * 512) (fun k => if k < size then src k else 0) (0 * 256 * 2) =
        d.bytes := by
      funext k
      exact put_outside (by omega)
    rw [writeUpTo, hb]
  conv_lhs => rw [h₀]
  refine foldl_range (f := fun j => writeUpTo lba src size d (j * 256)) fun j _ => ?_
  rw [foldl_writeWord_sector, Nat.add_one_mul]

/-- **A write leaves what `writeSectors` says**, on a drive that is writable. -/
theorem writeSectors_eq : writeSectors true d lba src size = EitanOS.writeSectors d lba src size := by
  unfold writeSectors EitanOS.writeSectors
  dsimp only
  simp only [Bool.true_eq_false, false_or]
  split_ifs
  · rfl
  · rw [foldl_writeWord]
    simp only [writeUpTo, Nat.mul_assoc, Nat.reduceMul]

end Pio

/-! ## Round trip -/

/-- **Sector transfer round trip.** What is written is read back, the rest of the last sector is zero,
and the other sectors stay as they are. -/
theorem sectors_round_trip (d : Drive) (hd : d.sectorCount < 2 ^ 16) (lba n : ℕ) (src target : Buf)
    (h₁ : 1 ≤ n) (h₂ : n ≤ 255 * 512) (hfit : lba + (n + 511) / 512 < d.sectorCount) :
    (Pio.writeSectors true d lba src n).sectorCount = d.sectorCount ∧
    (∀ k < n, Pio.readSectors (Pio.writeSectors true d lba src n) lba target n k = src k) ∧
    (∀ k, n ≤ k → k < (n + 511) / 512 * 512 →
      (Pio.writeSectors true d lba src n).bytes (lba * 512 + k) = 0) ∧
    ∀ s, s < lba ∨ lba + (n + 511) / 512 ≤ s → ∀ k < 512,
      (Pio.writeSectors true d lba src n).bytes (s * 512 + k) = d.bytes (s * 512 + k) := by
  have hcount : transferred d lba n = (n + 511) / 512 := transferred_of_le h₂ h₁ (by omega)
  have hlba : lba % 2 ^ 28 = lba := Nat.mod_eq_of_lt (by omega)
  rw [Pio.writeSectors_eq]
  have hsc : (writeSectors d lba src n).sectorCount = d.sectorCount := by rw [writeSectors_transferred]
  refine ⟨hsc, fun k hk => ?_, fun k hk hlast => ?_, fun s hs k hk => ?_⟩
  · rw [Pio.readSectors_eq, readSectors_apply h₂ (by omega) (by omega) hk]
    exact writeSectors_inside h₂ (by omega) hfit hk
  · rw [writeSectors_transferred, hcount, hlba]
    dsimp only
    rw [put_inside (by omega) (by omega), if_neg (by omega)]
  · rw [writeSectors_transferred, hcount, hlba]
    dsimp only
    rw [put_outside (by omega)]

theorem sectors_round_trip_three :
    (List.range 3).map (Pio.readSectors
      (Pio.writeSectors true blankDrive 5 (fun k => UInt8.ofNat (k + 7)) 3) 5 (fun _ => 1) 3) = [7, 8, 9] :=
  have h := (sectors_round_trip blankDrive (by decide) 5 3 (fun k => UInt8.ofNat (k + 7)) (fun _ => 1)
    (by decide) (by decide) (by decide)).2.1
  (List.map_congr_left fun k hk => h k (List.mem_range.mp hk)).trans (by decide)

/-! ## The target of a read -/

theorem Pio.readSectors_behind (hodd : size % 2 = 1) (hs : size ≤ 255 * 512)
    (hfit : (lba + (size + 511) / 512) % 2 ^ 32 < d.sectorCount) :
    Pio.readSectors d lba target size size = 0 := by
  have hcount : transferred d lba size = (size + 511) / 512 := transferred_of_le hs (by omega) hfit
  rw [Pio.readSectors_eq, readSectors_transferred, hcount]
  dsimp only
  rw [if_neg (by omega), if_pos ⟨rfl, hodd, by omega⟩]

/-- **A read changes only the bytes of its target** exactly if their number is even, or above 255
sectors, or the read is refused. -/
theorem Pio.readSectors_inside_iff :
    (∀ target k, size ≤ k → Pio.readSectors d lba target size k = target k) ↔
      size % 2 = 0 ∨ 255 * 512 < size ∨ d.sectorCount ≤ (lba + (size + 511) / 512) % 2 ^ 32 := by
  constructor
  · intro h
    by_contra hc
    have hz : Pio.readSectors d lba (fun _ => 1) size size = 0 :=
      Pio.readSectors_behind (by omega) (by omega) (by omega)
    rw [h (fun _ => 1) size le_rfl] at hz
    exact absurd hz (by decide)
  · intro hc target k hk
    have hcount : size % 2 = 1 → transferred d lba size * 512 ≤ size := by
      intro hodd
      by_cases hs : size ≤ 255 * 512
      · unfold transferred
        dsimp only
        rw [sectorsOf_eq hs, if_pos (by omega)]
        exact Nat.zero_le _
      · have : transferred d lba size ≤ 255 := transferred_le
        omega
    rw [Pio.readSectors_eq, readSectors_transferred]
    dsimp only
    rw [if_neg (by omega), if_neg fun h => ?_]
    have := hcount h.2.1
    omega

/-- **Reads stay inside the caller's buffer** exactly where they move no odd number of bytes. The second
part is about a file that is read into a buffer of the size that was reported for it before. -/
theorem read_stays_inside_iff (d : Drive) :
    (∀ lba size, (∀ target k, size ≤ k → Pio.readSectors d lba target size k = target k) ↔
      size % 2 = 0 ∨ 255 * 512 < size ∨ d.sectorCount ≤ (lba + (size + 511) / 512) % 2 ^ 32) ∧
    ∀ junk junk' path nameOut m e, readFileMetadata junk' d path nameOut = some m →
      lookup junk d path = some e → e.size.toNat = m.size →
      ((∀ dataOut b, readFile junk d path dataOut = some b → ∀ k, m.size ≤ k → b k = dataOut k) ↔
        m.size % 2 = 0 ∨ 255 * 512 < m.size ∨
          d.sectorCount ≤ (e.startSector.toNat + (m.size + 511) / 512) % 2 ^ 32) := by
  refine ⟨fun lba size => Pio.readSectors_inside_iff, fun junk junk' path nameOut m e _ he hsize => ?_⟩
  rw [← Pio.readSectors_inside_iff, ← hsize]
  simp only [readFile, he, Option.map_some, Option.some.injEq, Pio.readSectors_eq]
  constructor
  · intro h target k hk
    exact h target _ rfl k hk
  · rintro h target b rfl k hk
    exact h target k hk

theorem read_stays_inside_two : Pio.readSectors blankDrive 5 (fun _ => 1) 2 2 = 1 :=
  ((read_stays_inside_iff blankDrive).1 5 2).mpr (.inl (by decide)) (fun _ => 1) 2 le_rfl

theorem lookup_oneFile (junk : Junk) :
    ∃ e, lookup junk oneFile [47, 97] = some e ∧ e.size.toNat = 3 ∧
      (e.startSector.toNat + (e.size.toNat + 511) / 512) % 2 ^ 32 < oneFile.sectorCount := by
  obtain ⟨i, h⟩ := oneFile_written
  have hok := h.sound.treeOk
  have hsize := h.size_eq
  obtain ⟨-, -, hstop⟩ := hok.extents.bounds h.lt h.live (k := 0) (by omega)
  have hle := hok.sectors_le
  have hge := hok.le_sectors
  exact ⟨_, hok.lookup_eq junk (by decide) h.here, hsize, by omega⟩

/-- **A file of three bytes, read into a buffer of three bytes**, changes the byte behind them. -/
theorem read_file_past_buffer : ∃ m b, readFileMetadata zeroJunk oneFile [47, 97] (fun _ => 0) = some m ∧
    m.size = 3 ∧ readFile zeroJunk oneFile [47, 97] (fun _ => 1) = some b ∧ b 3 = 0 := by
  obtain ⟨e, he, hsize, hfit⟩ := lookup_oneFile zeroJunk
  have hz : Pio.readSectors oneFile e.startSector.toNat (fun _ => 1) e.size.toNat e.size.toNat = 0 :=
    Pio.readSectors_behind (by rw [hsize]) (by rw [hsize]; decide) hfit
  rw [hsize, Pio.readSectors_eq] at hz
  simp only [readFileMetadata, readFile, he, Option.map_some, hsize]
  exact ⟨_, _, rfl, rfl, rfl, hz⟩

end EitanOS
