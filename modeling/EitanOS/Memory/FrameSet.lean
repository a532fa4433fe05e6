import EitanOS.Lib.Runs
import EitanOS.Memory.BootFrames
import Mathlib.Order.Interval.Set.Basic

/-!
# The bitmap as a set of frames

The calls of `pmm.c` on addresses, run on the bitmap and on the set of the frames in use.

* `FrameCall.exec`: a call on the bitmap, and `FrameCall.spec`: the same call on a set.
* `Pmm.used`: the set of the bits that are on, those behind the last frame included.
* `spec_used`: one call does the same to both.
* **`frames_refine`**: so does every sequence of calls that leaves frame 0 alone, and `null` says that
  all frames are in use.
-/

namespace EitanOS

open Runs

/-! ## Calls on the bitmap -/

/-- `pmm_reserve_region`. -/
def pmmReserveRegion (m : Pmm) (start stop : ℕ) : Bool × Pmm :=
  if (List.range' (start / 4096) (stop / 4096 + 1 - start / 4096)).any (pmmGetFrame m) then (false, m)
  else (true, setFrames m start stop true)

/-- A call, with the addresses it is given. -/
inductive FrameCall
  | allocFrame
  | reserveFrame (addr : ℕ)
  | reserveRegion (start stop : ℕ)
  | freeFrame (addr : ℕ)
  | freeRegion (start stop : ℕ)
  | isReserved (addr : ℕ)

/-- What a call returns; `null` is the address 0. -/
inductive FrameAnswer
  | address (addr : ℕ)
  | flag (b : Bool)
  | void

namespace FrameCall

/-- The call on the bitmap. -/
def exec (m : Pmm) : FrameCall → FrameAnswer × Pmm
  | allocFrame => (.address ((pmmAllocFrame m).1 * 4096), (pmmAllocFrame m).2)
  | reserveFrame addr => (.flag (pmmReserveFrame m (addr / 4096)).1, (pmmReserveFrame m (addr / 4096)).2)
  | reserveRegion start stop => (.flag (pmmReserveRegion m start stop).1, (pmmReserveRegion m start stop).2)
  | freeFrame addr => (.void, pmmFreeFrame m (addr / 4096))
  | freeRegion start stop => (.void, pmmFreeRegion m start stop)
  | isReserved addr => (.flag (pmmIsReserved m (addr / 4096)), m)

/-- The address is behind frame 0 and in front of the last frame's end. -/
def InRange (total addr : ℕ) : Prop := 4096 ≤ addr ∧ addr < total * 4096

/-- The addresses of the call are in range, and a region does not end before it starts. -/
def Valid (total : ℕ) : FrameCall → Prop
  | allocFrame => True
  | reserveFrame addr | freeFrame addr | isReserved addr => InRange total addr
  | reserveRegion start stop | freeRegion start stop =>
    InRange total start ∧ InRange total stop ∧ start ≤ stop

/-! ## Calls on a set -/

open Classical in
/-- The call on the set `U` of the frames in use: what the calls are for. -/
noncomputable def spec (total : ℕ) (U : Set ℕ) : FrameCall → FrameAnswer × Set ℕ
  | allocFrame =>
    if h : ∃ f, f < total ∧ f ∉ U then (.address (Nat.find h * 4096), insert (Nat.find h) U)
    else (.address 0, U)
  | reserveFrame addr =>
    if addr / 4096 ∈ U then (.flag false, U) else (.flag true, insert (addr / 4096) U)
  | reserveRegion start stop =>
    if ∃ f ∈ Set.Icc (start / 4096) (stop / 4096), f ∈ U then (.flag false, U)
    else (.flag true, U ∪ Set.Icc (start / 4096) (stop / 4096))
  | freeFrame addr => (.void, U \ {addr / 4096})
  | freeRegion start stop => (.void, U \ Set.Icc (start / 4096) (stop / 4096))
  | isReserved addr => (.flag (addr / 4096 ∈ U), U)

end FrameCall

/-- The frames whose bit is on. -/
def Pmm.used (m : Pmm) : Set ℕ := {f | pmmGetFrame m f = true}

variable {m : Pmm} {f start stop : ℕ}

@[simp] theorem mem_used : f ∈ m.used ↔ pmmGetFrame m f = true := Iff.rfl

theorem used_note : (m.note f).used = m.used := by
  unfold Pmm.note
  split_ifs
  · rfl
  · rfl

theorem used_setFrame_true : (pmmSetFrame m f true).used = insert f m.used := by
  ext g
  simp only [mem_used, getFrame_setFrame, Set.mem_insert_iff]
  split_ifs with h
  · simp [h]
  · simp [h]

theorem used_setFrame_false : (pmmSetFrame m f false).used = m.used \ {f} := by
  ext g
  simp only [mem_used, getFrame_setFrame, Set.mem_sdiff, Set.mem_singleton_iff]
  split_ifs with h
  · simp [h]
  · simp [h]

theorem used_setFrames_true :
    (setFrames m start stop true).used = m.used ∪ Set.Icc (start / 4096) (stop / 4096) := by
  ext g
  simp only [mem_used, getFrame_setFrames, Set.mem_union, Set.mem_Icc]
  split_ifs with h
  · simp [h]
  · simp [h]

theorem used_setFrames_false :
    (setFrames m start stop false).used = m.used \ Set.Icc (start / 4096) (stop / 4096) := by
  ext g
  simp only [mem_used, getFrame_setFrames, Set.mem_sdiff, Set.mem_Icc]
  split_ifs with h
  · simp [h]
  · simp [h]

/-! ## One call -/

/-- **The search of `pmm_alloc_frame`** ends at the lowest frame that is not in use. -/
theorem find_free (h : ∃ f, f < m.totalFrames ∧ f ∉ m.used) :
    ∃ f, (List.range m.totalFrames).find? (fun i => !pmmGetFrame m i) = some f ∧
      f < m.totalFrames ∧ f ∉ m.used ∧ ∀ g < f, ¬ (g < m.totalFrames ∧ g ∉ m.used) := by
  cases e : (List.range m.totalFrames).find? fun i => !pmmGetFrame m i with
  | none =>
    obtain ⟨f, hf, hfree⟩ := h
    have := List.find?_eq_none.mp e f (List.mem_range.mpr hf)
    simp_all
  | some f =>
    refine ⟨f, rfl, ?_⟩
    rw [List.find?_range_eq_some] at e
    obtain ⟨hfree, hf, hmin⟩ := e
    refine ⟨List.mem_range.mp hf, by simpa using hfree, fun g hg hfree => ?_⟩
    have := hmin g hg
    simp_all

theorem find_none (h : ¬ ∃ f, f < m.totalFrames ∧ f ∉ m.used) :
    (List.range m.totalFrames).find? (fun i => !pmmGetFrame m i) = none := by
  rw [List.find?_eq_none]
  intro f hf
  by_contra hfree
  exact h ⟨f, List.mem_range.mp hf, by simpa using hfree⟩

open Classical in
/-- **One call does to the bitmap what it does to the set.** -/
theorem spec_used (h₀ : 0 ∈ m.used) (c : FrameCall) :
    c.spec m.totalFrames m.used = ((c.exec m).1, (c.exec m).2.used) := by
  cases c with
  | allocFrame =>
    by_cases h : ∃ f, f < m.totalFrames ∧ f ∉ m.used
    · obtain ⟨f, e, hf, hfree, hmin⟩ := find_free h
      have hfind : Nat.find h = f := (Nat.find_eq_iff h).mpr ⟨⟨hf, hfree⟩, hmin⟩
      -- frame 0 is in use, so the frame that is found is not `null`
      obtain ⟨k, rfl⟩ : ∃ k, f = k + 1 := Nat.exists_eq_succ_of_ne_zero fun h => hfree (h ▸ h₀)
      simp only [FrameCall.spec, FrameCall.exec, dif_pos h, hfind, pmmAllocFrame, e, used_note,
        used_setFrame_true]
    · simp only [FrameCall.spec, FrameCall.exec, dif_neg h, pmmAllocFrame, find_none h, Nat.zero_mul]
      rfl
  | reserveFrame addr =>
    simp only [FrameCall.spec, FrameCall.exec, pmmReserveFrame, mem_used]
    split_ifs with h
    · rfl
    · rw [used_setFrame_true]
  | reserveRegion start stop =>
    have hany : (List.range' (start / 4096) (stop / 4096 + 1 - start / 4096)).any (pmmGetFrame m) = true ↔
        ∃ f ∈ Set.Icc (start / 4096) (stop / 4096), f ∈ m.used := by
      simp only [List.any_eq_true, mem_region, Set.mem_Icc, mem_used]
    simp only [FrameCall.spec, FrameCall.exec, pmmReserveRegion]
    by_cases h : ∃ f ∈ Set.Icc (start / 4096) (stop / 4096), f ∈ m.used
    · rw [if_pos h, if_pos (hany.mpr h)]
    · rw [if_neg h, if_neg (mt hany.mp h), used_setFrames_true]
  | freeFrame addr => simp only [FrameCall.spec, FrameCall.exec, pmmFreeFrame, used_setFrame_false]
  | freeRegion start stop =>
    simp only [FrameCall.spec, FrameCall.exec, pmmFreeRegion, used_setFrames_false]
  | isReserved addr =>
    simp only [FrameCall.spec, FrameCall.exec, pmmIsReserved, mem_used, Bool.decide_eq_true]

/-! ## Sequences of calls -/

theorem exec_totalFrames (c : FrameCall) : (c.exec m).2.totalFrames = m.totalFrames := by
  cases c with
  | allocFrame => exact (pmmAllocFrame_cases m).1
  | reserveFrame addr =>
    simp only [FrameCall.exec, pmmReserveFrame]
    split_ifs
    · rfl
    · rfl
  | reserveRegion start stop =>
    simp only [FrameCall.exec, pmmReserveRegion]
    split_ifs
    · rfl
    · exact totalFrames_foldl_setFrame _ m true
  | freeFrame addr => rfl
  | freeRegion start stop => exact totalFrames_foldl_setFrame _ m false
  | isReserved addr => rfl

theorem zero_mem_spec {total : ℕ} {U : Set ℕ} (h₀ : 0 ∈ U) {c : FrameCall} (hc : c.Valid total) :
    0 ∈ (c.spec total U).2 := by
  cases c with
  | allocFrame =>
    simp only [FrameCall.spec]
    split_ifs
    · exact Set.mem_insert_of_mem _ h₀
    · exact h₀
  | reserveFrame addr =>
    simp only [FrameCall.spec]
    split_ifs
    · exact h₀
    · exact Set.mem_insert_of_mem _ h₀
  | reserveRegion start stop =>
    simp only [FrameCall.spec]
    split_ifs
    · exact h₀
    · exact .inl h₀
  | freeFrame addr =>
    obtain ⟨haddr, -⟩ := hc
    refine ⟨h₀, fun h => ?_⟩
    have : 0 = addr / 4096 := h
    omega
  | freeRegion start stop =>
    obtain ⟨⟨hstart, -⟩, -⟩ := hc
    refine ⟨h₀, fun h => ?_⟩
    have : start / 4096 ≤ 0 := h.1
    omega
  | isReserved addr => exact h₀

/-- Frame 0 is in use, and there are `total` frames. -/
structure FramesOk (total : ℕ) (m : Pmm) : Prop where
  zero : 0 ∈ m.used
  frames : m.totalFrames = total

theorem FramesOk.exec {total : ℕ} (h : FramesOk total m) {c : FrameCall} (hc : c.Valid total) :
    FramesOk total (c.exec m).2 := by
  obtain ⟨h₀, rfl⟩ := h
  refine ⟨?_, exec_totalFrames c⟩
  have hspec := zero_mem_spec h₀ hc
  rw [spec_used h₀] at hspec
  exact hspec

theorem pmmAllocFrame_null (h₀ : 0 ∈ m.used) :
    (pmmAllocFrame m).1 = 0 ↔ ∀ f < m.totalFrames, f ∈ m.used := by
  constructor
  · intro hnull f hf
    by_contra hfree
    obtain ⟨g, e, -, hg, -⟩ := find_free ⟨f, hf, hfree⟩
    obtain ⟨k, rfl⟩ : ∃ k, g = k + 1 := Nat.exists_eq_succ_of_ne_zero fun h => hg (h ▸ h₀)
    simp [pmmAllocFrame, e] at hnull
  · intro hall
    have hnone : ¬ ∃ f, f < m.totalFrames ∧ f ∉ m.used := fun ⟨f, hf, hfree⟩ => hfree (hall f hf)
    simp [pmmAllocFrame, find_none hnone]

/-- **The bitmap refines a set of frames.** Along every sequence of calls on addresses behind frame 0,
the answers and the bits that are on are those of the calls on a set; and an allocation returns `null`
exactly if all frames are in use. -/
theorem frames_refine (m : Pmm) (h₀ : pmmGetFrame m 0 = true) (calls : List FrameCall)
    (hc : ∀ c ∈ calls, c.Valid m.totalFrames) :
    run (FrameCall.spec m.totalFrames) m.used calls =
        ((run FrameCall.exec m calls).1, (run FrameCall.exec m calls).2.used) ∧
      ((pmmAllocFrame (run FrameCall.exec m calls).2).1 = 0 ↔
        ∀ f < m.totalFrames, f ∈ (run FrameCall.exec m calls).2.used) := by
  have hok : FramesOk m.totalFrames m := ⟨h₀, rfl⟩
  have hend : FramesOk m.totalFrames (run FrameCall.exec m calls).2 :=
    run_invariant (fun _ _ h hc => h.exec hc) hok hc
  refine ⟨run_refines (fun _ _ h hc => h.exec hc) (fun n c h _ => ?_) hok hc, ?_⟩
  · rw [← h.frames]
    exact spec_used h.zero c
  · rw [pmmAllocFrame_null hend.zero, hend.frames]

/-- Ten frames, of which only frame 0 is in use: the second byte of the bitmap is used in part. -/
def tenFrames : Pmm := ⟨fun i => if i = 0 then 1 else 0, 10, by decide, false, false⟩

/-- Calls that cross the byte boundary, fail, and free a frame that is then found again. -/
def tenFramesCalls : List FrameCall :=
  [.reserveRegion 12288 36864, .allocFrame, .reserveRegion 4096 12288, .freeRegion 28672 36863,
    .allocFrame, .allocFrame, .isReserved 36864]

theorem frames_refine_tenFrames : pmmGetFrame tenFrames 0 = true ∧
    run (FrameCall.spec 10) tenFrames.used tenFramesCalls =
      ((run FrameCall.exec tenFrames tenFramesCalls).1,
        (run FrameCall.exec tenFrames tenFramesCalls).2.used) :=
  ⟨by decide, (frames_refine tenFrames (by decide) tenFramesCalls
    (by simp [tenFramesCalls, FrameCall.Valid, FrameCall.InRange, tenFrames])).1⟩

example : (run FrameCall.exec tenFrames tenFramesCalls).1 = [.flag true, .address 4096, .flag false,
    .void, .address 8192, .address 28672, .flag true] := by
  rfl

end EitanOS
