import EitanOS.Memory.Paging

/-!
# What holds of all entries

The entries that the code writes are made of frames from `pmm_alloc_frame`, of addresses that are
passed to it, and of what it finds in other entries.

* `EntryRule`: a property of frames and one of entries, such that this keeps them.
* **`EntryRule.Holds`**: it holds in a state; each operation keeps it.
* `lowRule`: no frame is above `2 ^ 28`. `EntryRule.Holds.lowWalk`: then the code finds the page tables
  that the processor uses.
-/

namespace EitanOS

/-- A property of frames and one of entries: an entry that is made of such a frame has it, and the code
finds such a frame in it. -/
structure EntryRule where
  frame : ℕ → Prop
  entry : PageEntry → Prop
  make : ∀ (e : PageEntry) f, frame f → entry { e with physicalAddr := .ofNat 40 f }
  find : ∀ e, entry e → frame e.frame

/-- What `pmm_alloc_frame` can return has the one property, and the entries that are present have the
other. -/
structure EntryRule.Holds (R : EntryRule) (s : Vmm) : Prop where
  zero : R.frame 0
  frames : ∀ f < s.pmm.totalFrames, R.frame f
  entries : ∀ g i, (s.frames g i).present = true → R.entry (s.frames g i)

variable {R : EntryRule} {s : Vmm} {m : Pmm} {g t i virt phys flags : ℕ}

/-! ## The number of frames -/

@[simp] theorem reserveUnlessReserved_totalFrames (m : Pmm) (f : ℕ) :
    (reserveUnlessReserved m f).2.totalFrames = m.totalFrames := by
  unfold reserveUnlessReserved pmmReserveFrame
  split_ifs
  · rfl
  · rfl
  · rfl

@[simp] theorem freeIfReserved_totalFrames (m : Pmm) (f : ℕ) :
    (freeIfReserved m f).totalFrames = m.totalFrames := by
  unfold freeIfReserved
  split_ifs
  · rfl
  · rfl

@[simp] theorem pmmAllocFrame_totalFrames (m : Pmm) :
    (pmmAllocFrame m).2.totalFrames = m.totalFrames := (pmmAllocFrame_cases m).1

namespace EntryRule.Holds

/-! ## One entry -/

theorem withPmm (h : R.Holds s) (ht : m.totalFrames = s.pmm.totalFrames) :
    R.Holds { s with pmm := m } := ⟨h.zero, ht ▸ h.frames, h.entries⟩

theorem setPML4 (h : R.Holds s) (pml4 : ℕ) : R.Holds (vmmSetPML4 s pml4) :=
  ⟨h.zero, h.frames, h.entries⟩

theorem zeroFrame (h : R.Holds s) (n : ℕ) : R.Holds (s.zeroFrame n) := by
  refine ⟨h.zero, h.frames, fun g i hp => ?_⟩
  rw [frames_zeroFrame] at hp ⊢
  split_ifs at hp ⊢
  · cases hp
  · exact h.entries g i hp

theorem copyKernelPML4 (h : R.Holds s) (dst src : ℕ) : R.Holds (vmmCopyKernelPML4 s dst src) := by
  refine ⟨h.zero, h.frames, fun g i hp => ?_⟩
  rw [frames_copyKernelPML4] at hp ⊢
  split_ifs at hp ⊢
  · exact h.entries src i hp
  · exact h.entries g i hp

theorem setEntry (h : R.Holds s) {e : PageEntry} (he : e.present = true → R.entry e) (g i : ℕ) :
    R.Holds (s.setEntry g i e) := by
  refine ⟨h.zero, h.frames, fun g' i' hp => ?_⟩
  rw [frames_setEntry] at hp ⊢
  split_ifs at hp ⊢
  · exact he hp
  · exact h.entries g' i' hp

theorem allocFrame (h : R.Holds s) : R.frame (pmmAllocFrame s.pmm).1 := by
  rcases (pmmAllocFrame_cases s.pmm).2 with ⟨hnull, -⟩ | ⟨-, hlt, -⟩
  · rw [hnull]
    exact h.zero
  · exact h.frames _ hlt

/-! ## The operations -/

theorem nextTable (h : R.Holds s) (g i : ℕ) : R.Holds (nextTable s g i).2 := by
  have hpmm := h.withPmm (pmmAllocFrame_totalFrames s.pmm)
  unfold EitanOS.nextTable
  dsimp only
  split_ifs
  · exact h
  · exact hpmm
  · exact (hpmm.zeroFrame _).setEntry (fun _ => R.make _ _ h.allocFrame) g i

theorem withTable (h : R.Holds s) {next : ℕ → Vmm → Bool × Vmm}
    (hnext : ∀ t s', R.Holds s' → R.Holds (next t s').2) :
    R.Holds (withTable (EitanOS.nextTable s g i) next).2 := by
  have h' := h.nextTable g i
  generalize EitanOS.nextTable s g i = r at h' ⊢
  obtain ⟨_ | t, s'⟩ := r
  · exact h'
  · exact hnext t s' h'

theorem mapEntry (h : R.Holds s) (hp : R.frame (phys / 4096)) :
    R.Holds (mapEntry s t virt phys flags).2 := by
  unfold EitanOS.mapEntry
  dsimp only
  split_ifs
  · exact h
  · exact (h.withPmm (reserveUnlessReserved_totalFrames _ _)).setEntry (fun _ => R.make _ _ hp) _ _
  · exact h

theorem vmmMapPage (h : R.Holds s) (hp : R.frame (phys / 4096)) :
    R.Holds (vmmMapPage s virt phys flags).2 := by
  apply h.withTable
  intro pdpt s₁ h₁
  apply h₁.withTable
  intro pd s₂ h₂
  apply h₂.withTable
  intro pt s₃ h₃
  exact h₃.mapEntry hp

theorem vmmUnmapPage (h : R.Holds s) (virt : ℕ) : R.Holds (vmmUnmapPage s virt).2 := by
  unfold EitanOS.vmmUnmapPage
  cases pageTable s virt with
  | none => exact h
  | some pt =>
    dsimp only
    split_ifs
    · exact (h.setEntry (fun hp => by cases hp) pt _).withPmm (freeIfReserved_totalFrames _ _)
    · exact h

theorem vmmEditPage (h : R.Holds s) (hp : phys ≠ 0 → R.frame (phys / 4096)) :
    R.Holds (vmmEditPage s virt phys flags).2 := by
  unfold EitanOS.vmmEditPage
  cases e : pageTable s virt with
  | none => exact h
  | some pt =>
    dsimp only
    by_cases hpres : (s.frames pt (tableIndex 1 virt)).present
    · rw [if_pos hpres]
      have hold := R.find _ (h.entries pt (tableIndex 1 virt) hpres)
      have h₁ : R.Holds (if flags ≠ 0 then s.setEntry pt (tableIndex 1 virt)
          (.make flags (s.frames pt (tableIndex 1 virt)).frame) else s) := by
        split_ifs
        · exact h.setEntry (fun _ => R.make _ _ hold) pt _
        · exact h
      generalize (if flags ≠ 0 then s.setEntry pt (tableIndex 1 virt)
          (.make flags (s.frames pt (tableIndex 1 virt)).frame) else s) = s₁ at h₁ ⊢
      by_cases hphys : phys ≠ 0
      · have h₂ := h₁.withPmm ((reserveUnlessReserved_totalFrames _ (phys / 4096)).trans
          (freeIfReserved_totalFrames s₁.pmm (s.frames pt (tableIndex 1 virt)).frame))
        rw [if_pos hphys]
        split_ifs
        · exact h₂.setEntry (fun _ => R.make _ _ (hp hphys)) pt _
        · exact h₂
      · rw [if_neg hphys]
        exact h₁
    · rw [if_neg hpres]
      exact h

theorem unmapLoop (h : R.Holds s) (a n i : ℕ) : R.Holds (unmapLoop s a n i) := by
  induction n generalizing s i with
  | zero => exact h
  | succ n ih => exact ih (h.vmmUnmapPage _) (i + 1)

theorem editLoop (h : R.Holds s) (a flags n i : ℕ) (success : Bool) :
    R.Holds (editLoop s a flags n i success).2 := by
  induction n generalizing s i success with
  | zero => exact h
  | succ n ih => exact ih (h.vmmEditPage fun hne => absurd rfl hne) (i + 1) _

theorem mapAllocated (h : R.Holds s) (virt flags : ℕ) :
    R.Holds (EitanOS.vmmMapPage { s with pmm := (pmmAllocFrame s.pmm).2 } virt
      ((pmmAllocFrame s.pmm).1 * 4096) flags).2 := by
  refine (h.withPmm (pmmAllocFrame_totalFrames s.pmm)).vmmMapPage ?_
  rw [Nat.mul_div_cancel _ (by decide)]
  exact h.allocFrame

theorem allocLoop (h : R.Holds s) (a flags n i : ℕ) : R.Holds (allocLoop s a flags n i).2 := by
  induction n generalizing s i with
  | zero => exact h
  | succ n ih =>
    have h₁ := h.mapAllocated (pageAt a i) flags
    rw [EitanOS.allocLoop]
    dsimp only
    split_ifs
    · exact h.withPmm (pmmAllocFrame_totalFrames s.pmm)
    · exact ih h₁ (i + 1)
    · exact h₁.withPmm rfl

theorem vmmAlloc (h : R.Holds s) (a b flags : ℕ) : R.Holds (vmmAlloc s a b flags).2 := by
  have h' := h.allocLoop a flags (pageAmount a b) 0
  unfold EitanOS.vmmAlloc allocPages
  generalize EitanOS.allocLoop s a flags (pageAmount a b) 0 = r at h' ⊢
  obtain ⟨_ | failed, s'⟩ := r
  · exact h'
  · exact h'.unmapLoop _ _ _

end EntryRule.Holds

/-! ## Frames below `2 ^ 28` -/

/-- All frames are below `2 ^ 28`. -/
def lowRule : EntryRule where
  frame f := f < 2 ^ 28
  entry e := e.physicalAddr.toNat < 2 ^ 28
  make e f hf := by
    have := Nat.mod_le f (2 ^ 40)
    rw [BitVec.toNat_ofNat]
    omega
  find e _ := frame_lt e

theorem EntryRule.Holds.lowWalk (h : lowRule.Holds s) (pml4 virt : ℕ) : LowWalk s pml4 virt := by
  have hlow {g i f : ℕ} (e : leadsTo s g i = some f) : f < 2 ^ 28 := by
    unfold leadsTo PageEntry.target at e
    split_ifs at e with hp
    rw [← Option.some.inj e]
    exact h.entries g i hp
  exact fun _ e₄ => ⟨hlow e₄, fun _ e₃ => ⟨hlow e₃, fun _ e₂ => hlow e₂⟩⟩

end EitanOS
