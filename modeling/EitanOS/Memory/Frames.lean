import Mathlib.Data.UInt
import Mathlib.Data.List.Find
import Mathlib.Logic.Function.Basic
import Mathlib.Tactic.Common
import Mathlib.Tactic.IntervalCases

/-!
# Physical frames (`pmm.c`)

The bitmap as the code keeps it, one bit for every frame, and the operations on it. A frame stands
for its address; `null` is frame 0.

* `getFrame_setFrame`: the bitmap is a map from frames to bits.
* **`pmmAllocFrame_cases`**: what an allocation returns, and `pmmAllocFrame_spec`: what one that does
  not return `null` does.
-/

namespace EitanOS

/-- `pmm_bitmap` and `total_frames`. Physical addresses have at most 52 bits. The code does not read the
two records: `outOfFrames` says that some `pmm_alloc_frame` has returned `null`, and `outOfLowFrames`
that some has not returned a frame below `2 ^ 28`. -/
structure Pmm where
  bitmap : ℕ → UInt8
  totalFrames : ℕ
  totalFrames_le : totalFrames ≤ 2 ^ 40
  outOfFrames : Bool
  outOfLowFrames : Bool

/-- A bitmap of 16 frames. -/
abbrev Pmm.sixteen (bitmap : ℕ → UInt8) : Pmm := ⟨bitmap, 16, by decide, false, false⟩

/-- A bitmap of 64 frames. -/
abbrev Pmm.sixtyFour (bitmap : ℕ → UInt8) : Pmm := ⟨bitmap, 64, by decide, false, false⟩

/-- A bitmap with 8 frames from `2 ^ 28` on. -/
abbrev Pmm.high (bitmap : ℕ → UInt8) : Pmm := ⟨bitmap, 2 ^ 28 + 8, by decide, false, false⟩

/-- `pmm_set_frame`. -/
def pmmSetFrame (m : Pmm) (frame : ℕ) (used : Bool) : Pmm :=
  let bit : UInt8 := 1 <<< UInt8.ofNat (frame % 8)
  let byte := m.bitmap (frame / 8)
  { m with bitmap := Function.update m.bitmap (frame / 8) (if used then byte ||| bit else byte &&& ~~~bit) }

/-- `pmm_get_frame`. -/
def pmmGetFrame (m : Pmm) (frame : ℕ) : Bool :=
  (m.bitmap (frame / 8) >>> UInt8.ofNat (frame % 8)) &&& 1 ≠ 0

/-- Keep record of a frame from `2 ^ 28` on that has been returned. -/
def Pmm.note (m : Pmm) (frame : ℕ) : Pmm :=
  if frame < 2 ^ 28 then m else { m with outOfLowFrames := true }

/-- `pmm_alloc_frame`. -/
def pmmAllocFrame (m : Pmm) : ℕ × Pmm :=
  match (List.range m.totalFrames).find? fun i => !pmmGetFrame m i with
  | none => (0, { m with outOfFrames := true, outOfLowFrames := true })
  | some 0 => (0, { pmmSetFrame m 0 true with outOfFrames := true, outOfLowFrames := true })
  | some i => (i, (pmmSetFrame m i true).note i)

/-- `pmm_reserve_frame`. -/
def pmmReserveFrame (m : Pmm) (frame : ℕ) : Bool × Pmm :=
  if pmmGetFrame m frame then (false, m) else (true, pmmSetFrame m frame true)

/-- `pmm_free_frame`. -/
def pmmFreeFrame (m : Pmm) (frame : ℕ) : Pmm := pmmSetFrame m frame false

/-- `pmm_is_reserved`. -/
def pmmIsReserved (m : Pmm) (frame : ℕ) : Bool := pmmGetFrame m frame

/-- `if (!pmm_is_reserved(addr)) pmm_reserve_frame(addr)`, and whether it is reserved then. -/
def reserveUnlessReserved (m : Pmm) (frame : ℕ) : Bool × Pmm :=
  if pmmIsReserved m frame then (true, m) else pmmReserveFrame m frame

/-- `if (pmm_is_reserved(addr)) pmm_free_frame(addr)`. -/
def freeIfReserved (m : Pmm) (frame : ℕ) : Pmm :=
  if pmmIsReserved m frame then pmmFreeFrame m frame else m

variable {m m' : Pmm} {f g : ℕ} {used : Bool}

theorem shiftRight_and_one (x : UInt8) {j : ℕ} (hj : j < 8) :
    decide ((x >>> UInt8.ofNat j) &&& 1 ≠ 0) = x.toBitVec.getLsbD j := by
  have hz : (x >>> UInt8.ofNat j) &&& 1 = 0 ↔ ((x >>> UInt8.ofNat j) &&& 1).toNat = 0 := by
    rw [← UInt8.toNat_inj]
    rfl
  have hn : ((x >>> UInt8.ofNat j) &&& 1).toNat = x.toNat >>> j % 2 := by
    rw [UInt8.toNat_and, UInt8.toNat_shiftRight]
    simp [Nat.mod_eq_of_lt hj, Nat.and_one_is_mod]
  rw [Bool.eq_iff_iff, decide_eq_true_eq, ne_eq, hz, hn, BitVec.getLsbD]
  simp [Nat.testBit_eq_decide_div_mod_eq, Nat.shiftRight_eq_div_pow]

theorem getLsbD_one_shiftLeft {i j : ℕ} (hi : i < 8) (hj : j < 8) :
    ((1 : UInt8) <<< UInt8.ofNat i).toBitVec.getLsbD j = decide (j = i) := by
  interval_cases i <;> interval_cases j <;> rfl

/-- **The bitmap is a map from frames to bits.** -/
theorem getFrame_setFrame (m : Pmm) (f g : ℕ) (used : Bool) :
    pmmGetFrame (pmmSetFrame m f used) g = if g = f then used else pmmGetFrame m g := by
  have hg : g % 8 < 8 := Nat.mod_lt _ (by decide)
  have hf : f % 8 < 8 := Nat.mod_lt _ (by decide)
  unfold pmmGetFrame pmmSetFrame
  dsimp only
  rw [shiftRight_and_one _ hg, shiftRight_and_one _ hg]
  by_cases hb : g / 8 = f / 8
  · have hgf : g = f ↔ g % 8 = f % 8 := by omega
    rw [hb, Function.update_self]
    cases used with
    | true =>
      simp only [if_true, UInt8.toBitVec_or, BitVec.getLsbD_or, getLsbD_one_shiftLeft hf hg, hgf]
      by_cases e : g % 8 = f % 8
      · simp [e]
      · simp [e]
    | false =>
      simp only [Bool.false_eq_true, if_false, UInt8.toBitVec_and, BitVec.getLsbD_and,
        UInt8.toBitVec_not, BitVec.getLsbD_not, getLsbD_one_shiftLeft hf hg, hgf]
      by_cases e : g % 8 = f % 8
      · simp [e]
      · simp [e, hg]
  · rw [Function.update_of_ne hb, if_neg fun e => hb (congrArg (· / 8) e)]

theorem getFrame_full (h : m.bitmap (f / 8) = 0xff) : pmmGetFrame m f = true := by
  have hf : f % 8 < 8 := Nat.mod_lt _ (by decide)
  unfold pmmGetFrame
  rw [h]
  generalize f % 8 = i at hf
  interval_cases i <;> rfl

@[simp] theorem setFrame_totalFrames : (pmmSetFrame m f used).totalFrames = m.totalFrames := rfl

@[simp] theorem getFrame_note : pmmGetFrame (m.note f) g = pmmGetFrame m g := by
  unfold Pmm.note
  split_ifs
  · rfl
  · rfl

@[simp] theorem note_totalFrames : (m.note f).totalFrames = m.totalFrames := by
  unfold Pmm.note
  split_ifs
  · rfl
  · rfl

@[simp] theorem note_outOfFrames : (m.note f).outOfFrames = m.outOfFrames := by
  unfold Pmm.note
  split_ifs
  · rfl
  · rfl

theorem lt_of_note (h : (m.note f).outOfLowFrames = false) : f < 2 ^ 28 := by
  unfold Pmm.note at h
  split_ifs at h with hf
  exact hf

@[simp] theorem reserveUnlessReserved_outOfLowFrames :
    (reserveUnlessReserved m f).2.outOfLowFrames = m.outOfLowFrames := by
  unfold reserveUnlessReserved pmmReserveFrame
  split_ifs
  · rfl
  · rfl
  · rfl

@[simp] theorem freeIfReserved_outOfLowFrames :
    (freeIfReserved m f).outOfLowFrames = m.outOfLowFrames := by
  unfold freeIfReserved
  split_ifs
  · rfl
  · rfl

/-- **What `pmm_alloc_frame` returns**: `null`, or a frame that was free and is marked. -/
theorem pmmAllocFrame_cases (m : Pmm) :
    (pmmAllocFrame m).2.totalFrames = m.totalFrames ∧
      ((pmmAllocFrame m).1 = 0 ∧ (pmmAllocFrame m).2.outOfFrames = true ∧
          (pmmAllocFrame m).2.outOfLowFrames = true ∨
        (pmmAllocFrame m).1 ≠ 0 ∧ (pmmAllocFrame m).1 < m.totalFrames ∧
          pmmGetFrame m (pmmAllocFrame m).1 = false ∧
          (pmmAllocFrame m).2 = (pmmSetFrame m (pmmAllocFrame m).1 true).note (pmmAllocFrame m).1) := by
  unfold pmmAllocFrame
  cases e : (List.range m.totalFrames).find? fun i => !pmmGetFrame m i with
  | none => exact ⟨rfl, .inl ⟨rfl, rfl, rfl⟩⟩
  | some i =>
    cases i with
    | zero => exact ⟨rfl, .inl ⟨rfl, rfl, rfl⟩⟩
    | succ i =>
      have hi := List.mem_range.1 (List.mem_of_find?_eq_some e)
      have hfree := List.find?_some e
      exact ⟨note_totalFrames, .inr ⟨Nat.succ_ne_zero i, hi, by simpa using hfree, rfl⟩⟩

/-- The lowest free frame is the one returned. -/
theorem pmmAllocFrame_eq (h0 : f ≠ 0) (hlt : f < m.totalFrames) (hfree : pmmGetFrame m f = false)
    (hused : ∀ g < f, pmmGetFrame m g = true) :
    pmmAllocFrame m = (f, (pmmSetFrame m f true).note f) := by
  have hfind : ((List.range m.totalFrames).find? fun i => !pmmGetFrame m i) = some f := by
    refine List.find?_range_eq_some.2 ⟨?_, List.mem_range.2 hlt, fun g hg => ?_⟩
    · rw [hfree, Bool.not_false]
    · rw [hused g hg]
      rfl
  unfold pmmAllocFrame
  rw [hfind]
  cases f with
  | zero => exact absurd rfl h0
  | succ f => rfl

theorem pmmAllocFrame_lt (m : Pmm) : (pmmAllocFrame m).1 < 2 ^ 40 := by
  rcases (pmmAllocFrame_cases m).2 with ⟨h, -⟩ | ⟨-, h, -⟩
  · rw [h]
    decide
  · exact h.trans_le m.totalFrames_le

/-- **An allocation that returns a frame below `2 ^ 28`** returns one that was free, and marks it. -/
theorem pmmAllocFrame_spec (h : (pmmAllocFrame m).2.outOfLowFrames = false) :
    m.outOfLowFrames = false ∧ (pmmAllocFrame m).1 < m.totalFrames ∧ (pmmAllocFrame m).1 < 2 ^ 28 ∧
      pmmGetFrame m (pmmAllocFrame m).1 = false ∧
      (pmmAllocFrame m).2 = pmmSetFrame m (pmmAllocFrame m).1 true := by
  rcases (pmmAllocFrame_cases m).2 with ⟨-, -, ho⟩ | ⟨-, hlt, hfree, heq⟩
  · exact absurd (ho.symm.trans h) nofun
  · rw [heq] at h
    have hlow := lt_of_note h
    have hset : (pmmAllocFrame m).2 = pmmSetFrame m (pmmAllocFrame m).1 true := heq.trans (if_pos hlow)
    rw [← heq, hset] at h
    exact ⟨h, hlt, hlow, hfree, hset⟩

end EitanOS
