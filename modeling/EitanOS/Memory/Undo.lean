import EitanOS.Memory.Ranges
import Mathlib.Order.CompletePartialOrder

/-!
# Allocating a range of pages and giving it back

* `pages`: the pages of a range of addresses.
* **`vmm_alloc_all_or_nothing`**: while frames are below `2 ^ 28`, `vmm_alloc` takes all pages of its
  range, each with a frame that was free, or it returns false and only tables are left of it.
* `Interleaved`: runs of other allocations, and of changes of flags.
* **`vmm_free_undoes_alloc`**: after any of them, `vmm_free` restores the translation and gives back
  exactly the frames of the pages.
* `high_table_missed`, `high_page_not_freed`: what happens with other frames.
-/

namespace EitanOS

open Forest

variable {s s' s₀ s₁ : Vmm} {a b q q' f n i virt flags : ℕ} {l : List ℕ} {T : Set ℕ}

/-- The pages of the addresses from `a` to `b`. -/
def pages (a b : ℕ) : Set ℕ := Set.Icc (a / 4096) (b / 4096)

theorem UserRange.Ico_pages (h : UserRange a b) :
    Set.Ico (a / 4096) (a / 4096 + pageAmount a b) = pages a b := by
  have hle := Nat.div_le_div_right (c := 4096) h.le
  ext r
  simp only [pages, Set.mem_Ico, Set.mem_Icc, pageAmount, if_pos hle]
  omega

theorem UserRange.mem_pages (h : UserRange a b) :
    q ∈ pages a b ↔ ∃ j < pageAmount a b, q = a / 4096 + j := by
  rw [← h.Ico_pages]
  constructor
  · rintro ⟨h₁, h₂⟩
    exact ⟨q - a / 4096, by omega, by omega⟩
  · rintro ⟨j, hj, rfl⟩
    exact ⟨by omega, by omega⟩

/-! ## Pages and nodes -/

theorem exists_virt {i₁ i₂ i₃ i₄ : ℕ} (h₁ : i₁ < 512) (h₂ : i₂ < 512) (h₃ : i₃ < 512) (h₄ : i₄ < 256) :
    ∃ virt < 2 ^ 47, tableIndex 1 virt = i₁ ∧ tableSlots virt = [i₂, i₃, i₄] := by
  refine ⟨i₄ * 2 ^ 39 + i₃ * 2 ^ 30 + i₂ * 2 ^ 21 + i₁ * 2 ^ 12, by omega, ?_, ?_⟩
  · unfold tableIndex
    norm_num
    omega
  · unfold tableSlots tableIndex
    norm_num
    omega

theorem binding_fst (e : PageEntry) : e.binding.map Prod.fst = e.target := by
  unfold PageEntry.binding PageEntry.target
  split_ifs
  · rfl
  · rfl

/-- **The pages are the nodes of full depth.** -/
theorem exists_page_of_node (hn : s.half.Node s.current l f) (hl : l.length = 4) :
    ∃ q, (view s q).map Prod.fst = some f := by
  obtain ⟨i₁, i₂, i₃, i₄, rfl⟩ := List.length_eq_four.mp hl
  cases hn with
  | slot h₁ _ a₁ e₁ =>
    have hpt := h₁
    cases h₁ with
    | slot h₂ _ a₂ _ =>
      cases h₂ with
      | slot h₃ _ a₃ _ =>
        cases h₃ with
        | slot _ _ a₄ _ =>
          obtain ⟨virt, hv, rfl, hslots⟩ := exists_virt a₁.1 a₂.1 a₃.1 (a₄.2 rfl)
          refine ⟨virt / 4096, ?_⟩
          rw [LowHalfOk.view_of_node hv (hslots ▸ hpt), binding_fst]
          exact e₁

theorem node_of_page (h : (view s q).map Prod.fst = some f) :
    ∃ virt < 2 ^ 47, q = virt / 4096 ∧
      s.half.Node s.current (tableIndex 1 virt :: tableSlots virt) f := by
  obtain ⟨x, hx, rfl⟩ := Option.map_eq_some_iff.mp h
  have hq : q < 2 ^ 35 := by
    by_contra hq
    rw [view_outside s hq] at hx
    cases hx
  have hpage : q = q * 4096 / 4096 := (Nat.mul_div_cancel _ (by decide)).symm
  have hv : q * 4096 < 2 ^ 47 := by omega
  refine ⟨q * 4096, hv, hpage, ?_⟩
  rw [hpage] at hx
  obtain ⟨pt, hpt, hb⟩ := (view_eq_some hv).mp hx
  refine .slot hpt (by simp [tableSlots, userForest]) LowHalfOk.allowed_page ?_
  show (s.frames pt _).target = _
  rw [← binding_fst, hb]
  rfl

theorem LowHalfOk.page_injective (h : LowHalfOk s) (hq : (view s q).map Prod.fst = some f)
    (hq' : (view s q').map Prod.fst = some f) : q = q' := by
  obtain ⟨v, hv, rfl, hn⟩ := node_of_page hq
  obtain ⟨v', hv', rfl, hn'⟩ := node_of_page hq'
  have hl := (h.separate _ _ _ _ _ hn hn').2
  simp only [tableSlots, List.cons.injEq, and_true] at hl
  exact page_eq_of_tableIndex hv hv' hl.1 hl.2.1 hl.2.2.1 hl.2.2.2

theorem LowHalfOk.page_used (h : LowHalfOk s) (hq : (view s q).map Prod.fst = some f) :
    pmmGetFrame s.pmm f = true := by
  obtain ⟨virt, -, -, hn⟩ := node_of_page hq
  exact h.used _ _ _ hn

/-! ## Back to the base state -/

/-- A page table of the user half other than the PML4 itself. -/
def MiddleTable (s : Vmm) (f : ℕ) : Prop :=
  ∃ l, 0 < l.length ∧ l.length < 4 ∧ s.half.Node s.current l f

/-- **Every virtual page is translated as before**: in the user half to the same frame with the same
flags; and in the kernel half through the same entries, if its page tables are apart from the user
half. -/
structure SameTranslation (s s' : Vmm) : Prop where
  user : view s' = view s
  kernel : KernelApart s → ∀ l f i, (kernelForest s s.current).Node s.current l f →
    (l = [] → 256 ≤ i) → s'.frames f i = s.frames f i

namespace Taken

theorem sameTranslation (h : Taken s₀ s ∅) : SameTranslation s₀ s :=
  ⟨funext fun q => h.rest q (Set.notMem_empty q), fun hk _ _ _ hn hi => h.accounts.kernel_eq hk hn hi⟩

theorem tables (h : Taken s₀ s ∅) (h₀ : LowHalfOk s₀) (hf : pmmGetFrame s.pmm f = true) :
    pmmGetFrame s₀.pmm f = true ∨ MiddleTable s f := by
  rcases h.accounts.new f hf with hf | hf | ⟨l, hl⟩
  · exact .inl hf
  · exact absurd hf (Set.notMem_empty f)
  by_cases h4 : l.length = 4
  · obtain ⟨q, hq⟩ := exists_page_of_node hl h4
    rw [h.rest q (Set.notMem_empty q)] at hq
    exact .inl (h₀.page_used hq)
  · have hle : l.length ≤ 4 := hl.length_le
    cases l with
    | nil =>
      cases hl with
      | root _ => exact .inl (h.accounts.current ▸ h₀.used _ _ _ (.root rfl))
    | cons i l => exact .inr ⟨i :: l, Nat.succ_pos _, by omega, hl⟩

end Taken

/-! ## All or nothing -/

/-- The page at 0x2000000 is mapped, by a page table in frame `2 ^ 28 + 5`; frame 8 is free. -/
def highTable : Vmm := highMachine (fun i => if i = 1 then 0xfe else 0xff) 0x10000005 (some 6)

/-- **Runs after an allocation of the pages from `a` to `b`**: the flags of these pages are changed, and
pages of other ranges are allocated and given back. `T` are the pages of other ranges that have not
been given back. -/
inductive Interleaved (a b : ℕ) (s₁ : Vmm) : Set ℕ → Vmm → Prop
  | start : Interleaved a b s₁ ∅ s₁
  | edit {T : Set ℕ} {s : Vmm} {flags : ℕ} (h : Interleaved a b s₁ T s)
      (hf : flags.testBit 0 = true) : Interleaved a b s₁ T (vmmEditPages s a b flags).2
  | alloc {T : Set ℕ} {s : Vmm} {a' b' flags : ℕ} (h : Interleaved a b s₁ T s)
      (hr : UserRange a' b') (hd : Disjoint (pages a' b') (pages a b))
      (hf : flags.testBit 0 = true) (e : (vmmAlloc s a' b' flags).1 = true) :
      Interleaved a b s₁ (T ∪ pages a' b') (vmmAlloc s a' b' flags).2
  | fail {T : Set ℕ} {s : Vmm} {a' b' flags : ℕ} (h : Interleaved a b s₁ T s)
      (hr : UserRange a' b') (hf : flags.testBit 0 = true)
      (e : (vmmAlloc s a' b' flags).1 = false) : Interleaved a b s₁ T (vmmAlloc s a' b' flags).2
  | free {T : Set ℕ} {s : Vmm} {a' b' : ℕ} (h : Interleaved a b s₁ T s) (hr : UserRange a' b')
      (hT : pages a' b' ⊆ T) : Interleaved a b s₁ (T \ pages a' b') (vmmFree s a' b')

/-- What holds along such a run: the pages of the range and `T` are taken, and the pages of the range
have their frames. -/
structure Midway (s₀ s₁ : Vmm) (a b : ℕ) (T : Set ℕ) (s : Vmm) : Prop where
  taken : Taken s₀ s (pages a b ∪ T)
  disjoint : Disjoint T (pages a b)
  frames : ∀ q ∈ pages a b, (view s q).map Prod.fst = (view s₁ q).map Prod.fst

theorem LowHalfOk.vmmAlloc_view (h : LowHalfOk s) (hr : UserRange a b) (hf : flags.testBit 0 = true)
    (ho : (vmmAlloc s a b flags).2.pmm.outOfLowFrames = false) :
    (∀ q, q ∉ pages a b → view (vmmAlloc s a b flags).2 q = view s q) ∧
      ((vmmAlloc s a b flags).1 = false → view (vmmAlloc s a b flags).2 = view s) := by
  rcases h.allocPages hr hf le_rfl ho with ⟨htrue, hfill⟩ | ⟨-, -, hview, -⟩
  · refine ⟨fun q hq => hfill.rest q fun j hj e => hq (hr.mem_pages.mpr ⟨j, hj, e⟩), fun e => ?_⟩
    exact absurd (e.symm.trans htrue) nofun
  · exact ⟨fun q _ => congrFun hview q, fun _ => hview⟩

theorem LowHalfOk.vmmFree_view (h : LowHalfOk s) (hr : UserRange a b)
    (hlow : ∀ q ∈ pages a b, LowPage s q) :
    (∀ q, q ∉ pages a b → view (vmmFree s a b) q = view s q) ∧
      ∀ f, pmmGetFrame (vmmFree s a b).pmm f = true ↔ pmmGetFrame s.pmm f = true ∧
        ∀ q ∈ pages a b, (view s q).map Prod.fst ≠ some f := by
  obtain ⟨hrest, hframes⟩ := h.unmapLoop hr (i := 0) (n := pageAmount a b) (by omega)
    fun j hj => hlow _ (hr.mem_pages.mpr ⟨j, hj, rfl⟩)
  refine ⟨fun q hq => hrest q fun j hj e => hq (hr.mem_pages.mpr ⟨j, hj, e⟩), fun f => ?_⟩
  refine (hframes f).trans (and_congr_right fun _ => ⟨fun hall q hq => ?_, fun hall j hj => ?_⟩)
  · obtain ⟨j, hj, rfl⟩ := hr.mem_pages.mp hq
    exact hall j hj
  · exact hall _ (hr.mem_pages.mpr ⟨j, hj, rfl⟩)

theorem Taken.freePages {a' b' : ℕ} (h : Taken s₀ s T) (h₀ : LowHalfOk s₀) (hr : UserRange a' b')
    (hT : pages a' b' ⊆ T) : Taken s₀ (vmmFree s a' b') (T \ pages a' b') := by
  have ht := h.unmapLoop h₀ hr (i := 0) (n := pageAmount a' b') (by omega)
  rw [Nat.add_zero, hr.Ico_pages] at ht
  exact ht hT

namespace Midway

theorem edit (h : Midway s₀ s₁ a b T s) (hr : UserRange a b) (hf : flags.testBit 0 = true) :
    Midway s₀ s₁ a b T (vmmEditPages s a b flags).2 := by
  have hsub : Set.Ico (a / 4096 + 0) (a / 4096 + 0 + pageAmount a b) ⊆ pages a b ∪ T := by
    rw [Nat.add_zero, hr.Ico_pages]
    exact Set.subset_union_left
  obtain ⟨ht, hfst⟩ := h.taken.editLoop hr hf (i := 0) (by omega) hsub true
  exact ⟨ht, h.disjoint, fun q hq => (hfst q).trans (h.frames q hq)⟩

theorem alloc {a' b' : ℕ} (h : Midway s₀ s₁ a b T s) (h₀ : LowHalfOk s₀)
    (hr : UserRange a' b') (hd : Disjoint (pages a' b') (pages a b)) (hf : flags.testBit 0 = true)
    (ho : (vmmAlloc s a' b' flags).2.pmm.outOfLowFrames = false) (e : (vmmAlloc s a' b' flags).1 = true) :
    Midway s₀ s₁ a b (T ∪ pages a' b') (vmmAlloc s a' b' flags).2 := by
  obtain ⟨hrest, -⟩ := h.taken.ok.vmmAlloc_view hr hf ho
  rcases h.taken.allocPages h₀ hr hf le_rfl ho with ⟨-, -, ht⟩ | ⟨hfalse, -⟩
  · rw [hr.Ico_pages, Set.union_assoc] at ht
    refine ⟨ht, Disjoint.union_left h.disjoint hd, fun q hq => ?_⟩
    rw [hrest q (Set.disjoint_right.mp hd hq), h.frames q hq]
  · exact absurd (e.symm.trans hfalse) nofun

theorem fail {a' b' : ℕ} (h : Midway s₀ s₁ a b T s) (h₀ : LowHalfOk s₀)
    (hr : UserRange a' b') (hf : flags.testBit 0 = true)
    (ho : (vmmAlloc s a' b' flags).2.pmm.outOfLowFrames = false)
    (e : (vmmAlloc s a' b' flags).1 = false) : Midway s₀ s₁ a b T (vmmAlloc s a' b' flags).2 := by
  obtain ⟨-, hsame⟩ := h.taken.ok.vmmAlloc_view hr hf ho
  rcases h.taken.allocPages h₀ hr hf le_rfl ho with ⟨htrue, -⟩ | ⟨-, -, ht⟩
  · exact absurd (e.symm.trans htrue) nofun
  · exact ⟨ht, h.disjoint, fun q hq => by rw [hsame e, h.frames q hq]⟩

theorem free {a' b' : ℕ} (h : Midway s₀ s₁ a b T s) (h₀ : LowHalfOk s₀) (hr : UserRange a' b')
    (hT : pages a' b' ⊆ T) : Midway s₀ s₁ a b (T \ pages a' b') (vmmFree s a' b') := by
  obtain ⟨hrest, -⟩ := h.taken.ok.vmmFree_view hr fun q hq => h.taken.low q (.inr (hT hq))
  have hd : Disjoint (pages a' b') (pages a b) := h.disjoint.mono_left hT
  have ht := h.taken.freePages h₀ hr (hT.trans Set.subset_union_right)
  rw [Set.union_sdiff_distrib, hd.symm.sdiff_eq_left] at ht
  refine ⟨ht, h.disjoint.mono_left Set.sdiff_subset, fun q hq => ?_⟩
  rw [hrest q (Set.disjoint_right.mp hd hq), h.frames q hq]

theorem bound (h : Midway s₀ s₁ a b T s) (hq : q ∈ pages a b) :
    ∃ x, view s₁ q = some x ∧ pmmGetFrame s₀.pmm x.1 = false := by
  obtain ⟨y, hy, hfree⟩ := h.taken.bound q (.inl hq)
  have hfst := h.frames q hq
  rw [hy, Option.map_some] at hfst
  obtain ⟨x, hx, hxy⟩ := Option.map_eq_some_iff.mp hfst.symm
  exact ⟨x, hx, hxy ▸ hfree⟩

end Midway

theorem vmmAlloc_outOfLowFrames (h : (vmmAlloc s a b flags).2.pmm.outOfLowFrames = false) :
    s.pmm.outOfLowFrames = false := allocPages_outOfLowFrames h

/-- **Along a run** the pages stay taken, with their frames. -/
theorem Interleaved.midway (h : Interleaved a b s₁ T s) (h₀ : LowHalfOk s₀) (hr : UserRange a b)
    (h₁ : s₁.pmm.outOfLowFrames = false → Taken s₀ s₁ (pages a b)) (ho : s.pmm.outOfLowFrames = false) :
    Midway s₀ s₁ a b T s := by
  induction h with
  | start => exact ⟨by rw [Set.union_empty]; exact h₁ ho, Set.empty_disjoint _, fun _ _ => rfl⟩
  | edit _ hf ih =>
    rw [vmmEditPages, editLoop_pmm] at ho
    exact (ih ho).edit hr hf
  | alloc _ hr' hd hf e ih => exact (ih (vmmAlloc_outOfLowFrames ho)).alloc h₀ hr' hd hf ho e
  | fail _ hr' hf e ih => exact (ih (vmmAlloc_outOfLowFrames ho)).fail h₀ hr' hf ho e
  | free _ hr' hT ih =>
    rw [vmmFree, unmapLoop_outOfLowFrames] at ho
    exact (ih ho).free h₀ hr' hT

/-- `vmm_free` gives no frame from `2 ^ 28` on back. -/
theorem unmapLoop_high (s : Vmm) (a n i : ℕ) (hf : 2 ^ 28 ≤ f) :
    pmmGetFrame (unmapLoop s a n i).pmm f = pmmGetFrame s.pmm f := by
  induction n generalizing s i with
  | zero => rfl
  | succ n ih =>
    refine (ih _ _).trans ?_
    unfold vmmUnmapPage
    cases pageTable s (pageAt a i) with
    | none => rfl
    | some pt =>
      dsimp only
      split_ifs
      · have hne : f ≠ (s.frames pt (tableIndex 1 (pageAt a i))).frame :=
          ((frame_lt _).trans_le hf).ne'
        unfold freeIfReserved pmmFreeFrame
        split_ifs
        · rw [getFrame_setFrame, if_neg hne, setEntry_pmm]
        · rfl
      · rfl

/-- **`vmm_free` undoes `vmm_alloc`.** On a well-formed user half with its tables below frame `2 ^ 28`,
for every range of it on which `vmm_alloc` succeeds and after every run of changes of flags and of
other allocations that have been given back, while only frames below `2 ^ 28` are handed out:
`vmm_free` makes every page translate as before the `vmm_alloc`, and it frees exactly the frames that
`vmm_alloc` gave to the pages, which were free before; frames that are in use then and were not before
are those of page tables, and none that was in use is free. A frame from `2 ^ 28` on stays in use. -/
theorem vmm_free_undoes_alloc (h : UserHalfOk s) (hlow : LowTables s {s.current})
    (hr : UserRange a b) (hf : flags.testBit 0 = true) (e : (vmmAlloc s a b flags).1 = true)
    (hrun : Interleaved a b (vmmAlloc s a b flags).2 ∅ s') :
    (s'.pmm.outOfLowFrames = false →
      SameTranslation s (vmmFree s' a b) ∧
      (∀ f, pmmGetFrame (vmmFree s' a b).pmm f = true ↔ pmmGetFrame s'.pmm f = true ∧
        ∀ q ∈ pages a b, (view (vmmAlloc s a b flags).2 q).map Prod.fst ≠ some f) ∧
      (∀ q ∈ pages a b, ∃ x, view (vmmAlloc s a b flags).2 q = some x ∧
        pmmGetFrame s.pmm x.1 = false) ∧
      (∀ f, pmmGetFrame (vmmFree s' a b).pmm f = true →
        pmmGetFrame s.pmm f = true ∨ MiddleTable (vmmFree s' a b) f) ∧
      ∀ f, pmmGetFrame s.pmm f = true → pmmGetFrame (vmmFree s' a b).pmm f = true) ∧
    ∀ f, 2 ^ 28 ≤ f → pmmGetFrame s'.pmm f = true → pmmGetFrame (vmmFree s' a b).pmm f = true := by
  refine ⟨fun ho => ?_, fun f hf hused => (unmapLoop_high s' a _ 0 hf).trans hused⟩
  have h : LowHalfOk s := ⟨h, hlow⟩
  have h₁ (ho₁ : (vmmAlloc s a b flags).2.pmm.outOfLowFrames = false) :
      Taken s (vmmAlloc s a b flags).2 (pages a b) := by
    rcases (Taken.refl h).allocPages h hr hf le_rfl ho₁ with ⟨-, -, ht⟩ | ⟨hfalse, -⟩
    · rwa [Set.empty_union, hr.Ico_pages] at ht
    · exact absurd (e.symm.trans hfalse) nofun
  have hm := hrun.midway h hr h₁ ho
  have ht := hm.taken.freePages h hr Set.subset_union_left
  rw [Set.union_empty, Set.sdiff_self] at ht
  refine ⟨ht.sameTranslation, fun f => ?_, fun _ => hm.bound, fun f hf => ht.tables h hf, ht.accounts.mono⟩
  refine ((hm.taken.ok.vmmFree_view hr fun q hq => hm.taken.low q (.inl hq)).2 f).trans (and_congr_right fun _ => ?_)
  exact forall₂_congr fun q hq => by rw [hm.frames q hq]

theorem vmm_free_undoes_alloc_two_pages :
    ∃ s', Interleaved 0x2000800 0x2001800 (vmmAlloc emptyHalf 0x2000800 0x2001800 7).2 ∅ s' ∧
      SameTranslation emptyHalf (vmmFree s' 0x2000800 0x2001800) := by
  have hr : UserRange 0x2000800 0x2001800 := ⟨by decide, by decide⟩
  have hr' : UserRange 0x2003000 0x2003000 := ⟨by decide, by decide⟩
  have hd : Disjoint (pages 0x2003000 0x2003000) (pages 0x2000800 0x2001800) := by
    rw [Set.disjoint_left]
    rintro q ⟨hq, -⟩ ⟨-, hq'⟩
    omega
  have hstart : Interleaved 0x2000800 0x2001800 (vmmAlloc emptyHalf 0x2000800 0x2001800 7).2 ∅
      (vmmEditPages (vmmAlloc emptyHalf 0x2000800 0x2001800 7).2 0x2000800 0x2001800 5).2 :=
    .edit .start rfl
  have hf : (7 : ℕ).testBit 0 = true := rfl
  have hrun := (hstart.alloc hr' hd hf (by decide +kernel)).free hr' Set.subset_union_right
  rw [Set.union_sdiff_right, Set.empty_sdiff] at hrun
  refine ⟨_, hrun, ((vmm_free_undoes_alloc emptyHalf_ok.toUserHalfOk emptyHalf_ok.low hr rfl ?_
    hrun).1 ?_).1⟩
  · decide +kernel
  · decide +kernel

/-- No page is mapped, the tables for 0x2000000 are there, and only frame `2 ^ 28 + 1` is free. -/
def highFree : Vmm := highMachine (fun i => if i = 0x2000000 then 0xfd else 0xff) 4 none

theorem highFree_used (hf : f ≠ 0x10000001) : pmmGetFrame highFree.pmm f = true := by
  by_cases h : f / 8 = 0x2000000
  · have hlt : f - 0x10000000 < 8 := by omega
    obtain ⟨i, rfl⟩ : ∃ i, f = 0x10000000 + i := ⟨f - 0x10000000, by omega⟩
    have hi : i < 8 := by omega
    interval_cases i <;> first | rfl | exact absurd rfl hf
  · exact getFrame_full (if_neg h)

/-- **A page that gets frame `2 ^ 28 + 1`** gives back frame 1, the PML4, when it is freed, and not its
own. -/
theorem high_page_not_freed : UserHalfOk highFree ∧ LowTables highFree {highFree.current} ∧
    (vmmAlloc highFree 0x2000000 0x2000000 7).1 = true ∧
    (view (vmmAlloc highFree 0x2000000 0x2000000 7).2 0x2000).map Prod.fst = some 0x10000001 ∧
    pmmGetFrame (vmmFree (vmmAlloc highFree 0x2000000 0x2000000 7).2 0x2000000 0x2000000).pmm 1 =
      false ∧
    pmmGetFrame (vmmFree (vmmAlloc highFree 0x2000000 0x2000000 7).2 0x2000000 0x2000000).pmm
      0x10000001 = true := by
  have hlt {l : List ℕ} {f : ℕ} (h : OnChain 4 none l f) : f < 5 := by
    rcases h with ⟨-, h⟩ | ⟨-, h⟩ | ⟨-, h⟩ | ⟨-, h⟩ | ⟨-, h⟩
    · omega
    · omega
    · omega
    · omega
    · cases h
  have hnode {p : ℕ} {l : List ℕ} {f : ℕ} (hn : highFree.half.Node p l f) :
      p = 1 ∧ OnChain 4 none l f := onChain (by omega) (fun _ e => by cases e) hn
  have hok : UserHalfOk highFree := by
    refine userHalfOk_highMachine (by omega) (fun _ e => by cases e) fun l f hf => highFree_used ?_
    have := hlt hf
    omega
  have hfirst : pmmAllocFrame highFree.pmm =
      (0x10000001, (pmmSetFrame highFree.pmm 0x10000001 true).note 0x10000001) :=
    pmmAllocFrame_eq (by decide) (by decide) (by decide +kernel) fun g hg => highFree_used hg.ne
  have halloc : vmmAlloc highFree 0x2000000 0x2000000 7 = (true, _) :=
    vmmAlloc_page (by decide) hfirst (by decide) (Prod.ext (by decide +kernel) rfl)
  rw [halloc]
  refine ⟨hok, fun p l f hn _ _ => ?_, rfl, by decide +kernel, by decide +kernel, by decide +kernel⟩
  have := hlt (hnode hn).2
  omega

end EitanOS
