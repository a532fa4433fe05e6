import EitanOS.Memory.Paging

/-!
# Running out of frames

`pmm_alloc_frame` answers `null` when it has no frame to give. `vmm_map_page` and `vmm_create_PML4` add
`hhdm_offset` to the answer before they compare it with `null`, so they go on with frame 0 as if they
had been given it.

* `DirectMapFits`: the direct map is not at 0 and does not wrap around.
* `Struck`: what holds at each level of `vmm_map_page` once an allocation has failed.
* **`exhaustion_survived_iff`**: no call in which an allocation fails is survived.
-/

namespace EitanOS

variable {s : Vmm} {g t i virt phys flags : ℕ}

/-- The direct map starts above 0 and ends below `2 ^ 64`. -/
structure DirectMapFits (s : Vmm) : Prop where
  offset_pos : 0 < s.hhdmOffset
  offset_lt : s.hhdmOffset < 2 ^ 64
  le : s.pmm.totalFrames * 4096 + s.hhdmOffset ≤ 2 ^ 64

theorem DirectMapFits.hhdm_ne_zero (h : DirectMapFits s) {pmm : Pmm} {f : ℕ}
    (hf : f = 0 ∨ f < s.pmm.totalFrames) : { s with pmm := pmm }.hhdm f ≠ 0 := by
  obtain ⟨hpos, hlt, hle⟩ := h
  unfold Vmm.hhdm
  dsimp only
  rw [Nat.mod_eq_of_lt (by omega)]
  omega

/-! ## One level -/

/-- **After a failed allocation** `vmm_map_page` is at frame 0, which some entry leads to and whose own
entries lead nowhere else; or it is at a new table, and will succeed. -/
inductive Struck (s : Vmm) : ℕ → Prop
  | zero {g i : ℕ} (link : leadsTo s g i = some 0)
      (self : ∀ j x, walkTable s 0 j = some x → x = 0) : Struck s 0
  | fresh {n : ℕ} (ne : n ≠ 0) (used : pmmGetFrame s.pmm n = true)
      (empty : ∀ j, walkTable s n j = none) : Struck s n

/-- The next level, made of the frame that `pmm_alloc_frame` has returned. -/
def Vmm.linkNew (s : Vmm) (g i : ℕ) : Vmm :=
  ({ s with pmm := (pmmAllocFrame s.pmm).2 }.zeroFrame (pmmAllocFrame s.pmm).1).setEntry g i
    (.make vmmFlagsTable (pmmAllocFrame s.pmm).1)

theorem DirectMapFits.nextTable (h : DirectMapFits s) (g i : ℕ) :
    nextTable s g i = match walkTable s g i with
      | some n => (some n, s)
      | none => (some (pmmAllocFrame s.pmm).1, s.linkNew g i) := by
  unfold EitanOS.nextTable walkTable
  dsimp only
  split_ifs with hp hz
  · rfl
  · refine absurd hz (h.hhdm_ne_zero ?_)
    exact (pmmAllocFrame_cases s.pmm).2.imp And.left fun h => h.2.1
  · rfl

theorem leadsTo_linkNew (s : Vmm) (g i : ℕ) :
    leadsTo (s.linkNew g i) g i = some (pmmAllocFrame s.pmm).1 := by
  unfold leadsTo Vmm.linkNew
  rw [frames_setEntry, if_pos ⟨rfl, rfl⟩]
  exact target_make rfl (pmmAllocFrame_lt _)

theorem walkTable_linkNew (s : Vmm) (g i g' j : ℕ) :
    walkTable (s.linkNew g i) g' j =
      if g' = g ∧ j = i then some (PageEntry.make vmmFlagsTable (pmmAllocFrame s.pmm).1).frame
      else if g' = (pmmAllocFrame s.pmm).1 then none else walkTable s g' j := by
  unfold walkTable Vmm.linkNew
  rw [frames_setEntry, frames_zeroFrame]
  split_ifs
  · rfl
  · rfl
  · rfl

theorem DirectMapFits.linkNew (h : DirectMapFits s) (g i : ℕ) : DirectMapFits (s.linkNew g i) := by
  refine ⟨h.offset_pos, h.offset_lt, ?_⟩
  show (pmmAllocFrame s.pmm).2.totalFrames * 4096 + s.hhdmOffset ≤ 2 ^ 64
  rw [(pmmAllocFrame_cases s.pmm).1]
  exact h.le

theorem struck_of_null (hnull : (pmmAllocFrame s.pmm).1 = 0) (g i : ℕ) :
    Struck (s.linkNew g i) 0 := by
  refine .zero (g := g) (i := i) ?_ fun j x hx => ?_
  · rw [leadsTo_linkNew, hnull]
  · rw [walkTable_linkNew, hnull, if_pos rfl] at hx
    split_ifs at hx
    exact (Option.some.inj hx).symm

theorem struck_of_new (hne : (pmmAllocFrame s.pmm).1 ≠ 0) (hg : g ≠ (pmmAllocFrame s.pmm).1) (i : ℕ) :
    Struck (s.linkNew g i) (pmmAllocFrame s.pmm).1 := by
  refine .fresh hne ?_ fun j => ?_
  · rcases (pmmAllocFrame_cases s.pmm).2 with ⟨h, -⟩ | ⟨-, -, -, h⟩
    · exact absurd h hne
    · show pmmGetFrame (pmmAllocFrame s.pmm).2 _ = true
      rw [h, getFrame_note, getFrame_setFrame, if_pos rfl]
  · rw [walkTable_linkNew s g i _ j, if_neg fun e => hg e.1.symm, if_pos rfl]

/-- **A level after a failed allocation.** -/
theorem Struck.next (h : Struck s t) :
    Struck (s.linkNew t i) (pmmAllocFrame s.pmm).1 := by
  by_cases hnull : (pmmAllocFrame s.pmm).1 = 0
  · rw [hnull]
    exact struck_of_null hnull t i
  · refine struck_of_new hnull (fun e => ?_) i
    cases h with
    | zero _ _ => exact hnull e.symm
    | fresh _ used _ =>
      -- a table in use is not given out again
      rcases (pmmAllocFrame_cases s.pmm).2 with ⟨h, -⟩ | ⟨-, -, hfree, -⟩
      · exact hnull h
      · rw [← e, used] at hfree
        cases hfree

/-- What holds between two levels: if an allocation has failed, it has struck. -/
structure Level (s : Vmm) (t : ℕ) : Prop where
  fits : DirectMapFits s
  struck : s.pmm.outOfFrames = true → Struck s t

/-- A call that is not survived: it has returned true, or some entry leads to frame 0. -/
def Damaged (r : Bool × Vmm) : Prop :=
  r.2.pmm.outOfFrames = true → r.1 = true ∨ ∃ g i, leadsTo r.2 g i = some 0

theorem Level.withTable (h : Level s t) {next : ℕ → Vmm → Bool × Vmm}
    (hnext : ∀ n s', Level s' n → Damaged (next n s')) :
    Damaged (withTable (nextTable s t i) next) := by
  rw [h.fits.nextTable]
  cases e : walkTable s t i with
  | some n =>
    refine hnext n s ⟨h.fits, fun ho => ?_⟩
    have hs := h.struck ho
    cases hs with
    | zero link self =>
      rw [self i n e]
      exact .zero link self
    | fresh _ _ empty =>
      rw [empty i] at e
      cases e
  | none =>
    refine hnext _ _ ⟨h.fits.linkNew t i, fun ho => ?_⟩
    cases hout : s.pmm.outOfFrames with
    | true => exact (h.struck hout).next
    | false =>
      -- this is the allocation that fails
      rcases (pmmAllocFrame_cases s.pmm).2 with ⟨hnull, -⟩ | ⟨-, -, -, hset⟩
      · rw [hnull]
        exact struck_of_null hnull t i
      · change (pmmAllocFrame s.pmm).2.outOfFrames = true at ho
        rw [hset, note_outOfFrames] at ho
        exact absurd (ho.symm.trans hout) nofun

theorem reserveUnlessReserved_fst (m : Pmm) (f : ℕ) : (reserveUnlessReserved m f).1 = true := by
  unfold reserveUnlessReserved pmmReserveFrame pmmIsReserved
  split_ifs
  · rfl
  · rfl

theorem Level.mapEntry (h : Level s t) : Damaged (mapEntry s t virt phys flags) := by
  intro ho
  unfold EitanOS.mapEntry at ho ⊢
  dsimp only at ho ⊢
  rw [if_pos (reserveUnlessReserved_fst _ _)] at ho ⊢
  split_ifs at ho ⊢ with hp
  · have hs := h.struck ho
    cases hs with
    | zero link _ => exact .inr ⟨_, _, link⟩
    | fresh _ _ empty =>
      have he := empty (tableIndex 1 virt)
      unfold walkTable at he
      dsimp only at he
      rw [if_pos hp] at he
      cases he
  · exact .inl rfl

/-! ## The calls -/

/-- **What `vmm_map_page` has to do when an allocation fails**: it returns false, every page is
translated as before, and no entry leads to frame 0. -/
def MapSurvives (s : Vmm) (virt phys flags : ℕ) : Prop :=
  (vmmMapPage s virt phys flags).2.pmm.outOfFrames = true →
    (vmmMapPage s virt phys flags).1 = false ∧
    (∀ v, translate (vmmMapPage s virt phys flags).2 s.current v = translate s s.current v) ∧
    ∀ g i, leadsTo (vmmMapPage s virt phys flags).2 g i ≠ some 0

/-- **What `vmm_create_PML4` has to do when the allocation fails**: it returns false and leaves frame 0
alone. -/
def CreateSurvives (s : Vmm) : Prop :=
  (vmmCreatePML4 s).2.pmm.outOfFrames = true →
    (vmmCreatePML4 s).1 = none ∧ (vmmCreatePML4 s).2.frames 0 = s.frames 0

theorem vmmMapPage_damaged (h : DirectMapFits s) (ho : s.pmm.outOfFrames = false) :
    Damaged (vmmMapPage s virt phys flags) := by
  have hstart : Level s s.current := ⟨h, fun e => absurd (e.symm.trans ho) nofun⟩
  apply hstart.withTable
  intro pdpt s₁ h₁
  apply h₁.withTable
  intro pd s₂ h₂
  apply h₂.withTable
  intro pt s₃ h₃
  exact h₃.mapEntry

theorem vmmCreatePML4_fst (h : DirectMapFits s) :
    (vmmCreatePML4 s).1 = some (pmmAllocFrame s.pmm).1 := by
  unfold vmmCreatePML4
  dsimp only
  rw [if_neg (h.hhdm_ne_zero ?_)]
  exact (pmmAllocFrame_cases s.pmm).2.imp And.left fun h => h.2.1

/-- **Running out of frames is never survived.** For every state of the page tables, with the direct
map above 0, and all arguments: `vmm_map_page` does what it has to do if and only if none of its
allocations fails, and so does `vmm_create_PML4`. -/
theorem exhaustion_survived_iff (h : DirectMapFits s) (ho : s.pmm.outOfFrames = false)
    (virt phys flags : ℕ) :
    (MapSurvives s virt phys flags ↔ (vmmMapPage s virt phys flags).2.pmm.outOfFrames = false) ∧
      (CreateSurvives s ↔ (vmmCreatePML4 s).2.pmm.outOfFrames = false) := by
  refine ⟨⟨fun hs => ?_, fun hf ht => absurd (ht.symm.trans hf) nofun⟩,
    fun hs => ?_, fun hf ht => absurd (ht.symm.trans hf) nofun⟩
  · by_contra hout
    rw [Bool.not_eq_false] at hout
    obtain ⟨hfalse, -, hzero⟩ := hs hout
    rcases vmmMapPage_damaged h ho hout with htrue | ⟨g, i, hgi⟩
    · exact absurd (htrue.symm.trans hfalse) nofun
    · exact hzero g i hgi
  · by_contra hout
    rw [Bool.not_eq_false] at hout
    obtain ⟨hnone, -⟩ := hs hout
    rw [vmmCreatePML4_fst h] at hnone
    cases hnone

/-- A machine of 16 frames that are all in use, with an empty page table. -/
def fullMemory : Vmm where
  pmm := .sixteen fun _ => 0xff
  frames _ _ := .ofFlags 0
  current := 1
  hhdmOffset := 0xffff800000000000

theorem exhaustion_survived_iff_full :
    ¬ MapSurvives fullMemory 0x2000000 0x5000 7 ∧ ¬ CreateSurvives fullMemory := by
  have h : DirectMapFits fullMemory := ⟨by decide, by decide, by decide⟩
  obtain ⟨hmap, hcreate⟩ := exhaustion_survived_iff h rfl 0x2000000 0x5000 7
  rw [hmap, hcreate]
  decide +kernel

/-- `vmm_map_page` reports success, and the PML4 leads to frame 0; `vmm_create_PML4` makes frame 0 the
new PML4. -/
theorem exhaustion_uses_frame_zero :
    (vmmMapPage fullMemory 0x2000000 0x5000 7).1 = true ∧
      leadsTo (vmmMapPage fullMemory 0x2000000 0x5000 7).2 1 0 = some 0 ∧
      (vmmMapPage fullMemory 0x2000000 0x5000 7).2.pmm.outOfFrames = true ∧
      (vmmCreatePML4 fullMemory).1 = some 0 ∧
      (vmmCreatePML4 fullMemory).2.pmm.outOfFrames = true := by
  decide +kernel

end EitanOS
