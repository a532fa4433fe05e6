import EitanOS.Memory.Translation
import Mathlib.Data.Finset.Card

/-!
# Ranges of pages

What `vmm_alloc` and `vmm_edit_pages` do to the view of the user half, and how many frames they
take.

* `Filled`: a run of pages that were not bound is bound now, and nothing else has changed.
* **`LowHalfOk.allocPages`**: `vmm_alloc` fills its pages if none of them is bound, and otherwise
  returns false and leaves the view as it was.
* **`Stocked.allocLoop`**: five free frames for each page are enough.
-/

namespace EitanOS

open Forest

variable {s s' : Vmm} {a b n i m q flags amount virt : ℕ}

theorem UserRange.pageAt_div (h : UserRange a b) (hi : i < pageAmount a b) :
    pageAt a i / 4096 = a / 4096 + i := by
  have h₁ := h.le
  have h₂ := h.lt
  have hle := Nat.div_le_div_right (c := 4096) h₁
  rw [pageAmount, if_pos hle] at hi
  unfold pageAt
  omega

/-! ## Pages taken since a base state -/

/-- **The pages `T` were taken since `s₀`**: they were not bound then and are now, to frames that were
free, below `2 ^ 28`; the other pages are as they were. -/
structure Taken (s₀ s : Vmm) (T : Set ℕ) : Prop where
  ok : LowHalfOk s
  accounts : Accounts ∅ s₀ s
  free : ∀ q ∈ T, view s₀ q = none
  bound : ∀ q ∈ T, ∃ x, view s q = some x ∧ pmmGetFrame s₀.pmm x.1 = false
  rest : ∀ q, q ∉ T → view s q = view s₀ q
  low : ∀ q ∈ T, LowPage s q

theorem Taken.refl (h : LowHalfOk s) : Taken s s ∅ :=
  ⟨h, .refl s, fun _ hq => absurd hq (Set.notMem_empty _), fun _ hq => absurd hq (Set.notMem_empty _),
    fun _ _ => rfl, fun _ hq => absurd hq (Set.notMem_empty _)⟩

variable {s₀ : Vmm} {T : Set ℕ}

theorem Taken.notMem (h : Taken s₀ s T) (hq : view s q = none) : q ∉ T := fun hm => by
  obtain ⟨x, hx, -⟩ := h.bound q hm
  rw [hq] at hx
  cases hx

theorem Taken.insert {x : Binding} (h : Taken s₀ s T) (hok : LowHalfOk s') (hacc : Accounts ∅ s s')
    (hnone : view s q = none) (hview : view s' = Function.update (view s) q (some x))
    (hfree : pmmGetFrame s.pmm x.1 = false) (hlow : x.1 < 2 ^ 28) : Taken s₀ s' (insert q T) := by
  have hqT := h.notMem hnone
  refine ⟨hok, h.accounts.trans hacc, fun r hr => ?_, fun r hr => ?_, fun r hr => ?_,
    fun r hr b hb => ?_⟩
  · rcases hr with rfl | hr
    · rw [← h.rest r hqT, hnone]
    · exact h.free r hr
  · rcases hr with rfl | hr
    · refine ⟨x, by rw [hview, Function.update_self], Bool.eq_false_iff.mpr fun hu => ?_⟩
      rw [h.accounts.mono _ hu] at hfree
      cases hfree
    · rw [hview, Function.update_of_ne (ne_of_mem_of_not_mem hr hqT)]
      exact h.bound r hr
  · have hne : r ≠ q := fun e => hr (.inl e)
    rw [hview, Function.update_of_ne hne]
    exact h.rest r fun hm => hr (.inr hm)
  · rcases hr with rfl | hr
    · rw [hview, Function.update_self] at hb
      cases hb
      exact hlow
    · rw [hview, Function.update_of_ne (ne_of_mem_of_not_mem hr hqT)] at hb
      exact h.low r hr b hb

theorem Taken.unmapPage (h : Taken s₀ s T) (h₀ : LowHalfOk s₀) (hv : virt < 2 ^ 47)
    (hq : virt / 4096 ∈ T) : Taken s₀ (vmmUnmapPage s virt).2 (T \ {virt / 4096}) := by
  obtain ⟨x, hx, hfree⟩ := h.bound _ hq
  have hlow := h.low _ hq
  obtain ⟨hview, -, hok⟩ := h.ok.vmmUnmapPage hv hlow
  have hview := congrArg Prod.snd hview
  rw [PageMap.unmap, hx] at hview
  dsimp only at hview
  refine ⟨hok, h.ok.vmmUnmapPage_accounts h₀ hv hlow h.accounts fun b hb => ?_,
    fun r hr => h.free r hr.1, fun r hr => ?_, fun r hr => ?_, fun r hr b hb => ?_⟩
  · rw [hx] at hb
    exact Option.some.inj hb ▸ hfree
  · rw [hview, Function.update_of_ne hr.2]
    exact h.bound r hr.1
  · rw [hview]
    by_cases e : r = virt / 4096
    · rw [e, Function.update_self, h.free _ hq]
    · rw [Function.update_of_ne e]
      exact h.rest r fun hm => hr ⟨hm, e⟩
  · rw [hview, Function.update_of_ne hr.2] at hb
    exact h.low r hr.1 b hb

theorem Taken.editPage (h : Taken s₀ s T) (hv : virt < 2 ^ 47) (hf : flags.testBit 0 = true)
    (hq : virt / 4096 ∈ T) : Taken s₀ (vmmEditPage s virt 0 flags).2 T ∧
      ∀ q, (view (vmmEditPage s virt 0 flags).2 q).map Prod.fst = (view s q).map Prod.fst := by
  obtain ⟨x, hx, hfree⟩ := h.bound _ hq
  have hlow := h.low _ hq
  obtain ⟨hview, hok⟩ := h.ok.vmmEditPage hv hf hlow
  have hview := congrArg Prod.snd hview
  rw [PageMap.edit, hx] at hview
  dsimp only at hview
  have hne : ∀ r, r ≠ virt / 4096 → view (vmmEditPage s virt 0 flags).2 r = view s r := fun r hr => by
    rw [hview, Function.update_of_ne hr]
  refine ⟨⟨hok, h.ok.vmmEditPage_accounts hv hf hlow h.accounts, h.free, fun r hr => ?_, fun r hr => ?_,
    fun r hr b hb => ?_⟩, fun r => ?_⟩
  · by_cases e : r = virt / 4096
    · refine ⟨(x.1, (PageEntry.ofFlags flags).flags), ?_, hfree⟩
      rw [e, hview, Function.update_self]
    · rw [hne r e]
      exact h.bound r hr
  · rw [hne r (ne_of_mem_of_not_mem hq hr).symm]
    exact h.rest r hr
  · by_cases e : r = virt / 4096
    · rw [e, hview, Function.update_self] at hb
      cases hb
      exact hlow x hx
    · rw [hne r e] at hb
      exact h.low r hr b hb
  · by_cases e : r = virt / 4096
    · rw [e, hview, Function.update_self, hx]
      rfl
    · rw [hne r e]

theorem pmmAllocFrame_ne_zero {p : Pmm} (h : (pmmAllocFrame p).2.outOfLowFrames = false) :
    (pmmAllocFrame p).1 ≠ 0 := by
  rcases (pmmAllocFrame_cases p).2 with ⟨-, -, ho⟩ | ⟨hne, -⟩
  · exact absurd (ho.symm.trans h) nofun
  · exact hne

namespace LowHalfOk

theorem vmmMapPage_bound (h : LowHalfOk s) (hv : virt < 2 ^ 47) {phys : ℕ}
    (ho : (EitanOS.vmmMapPage s virt phys flags).2.pmm.outOfLowFrames = false)
    (hb : view s (virt / 4096) ≠ none) :
    ∃ s', EitanOS.vmmMapPage s virt phys flags = (false, s') ∧ Grown s s' ∧ Accounts ∅ s s' := by
  obtain ⟨pt, s', e, hs, hacc, -, hg⟩ := h.vmmMapPage_table hv ho
  rw [← hs.view_eq, view_of_node hv hg] at hb
  have hp : (s'.frames pt (tableIndex 1 virt)).present = true := by
    by_contra hp
    exact hb (if_neg hp)
  exact ⟨s', by rw [e, EitanOS.mapEntry, if_pos hp], hs, hacc⟩

theorem vmmMapPage_free (h : LowHalfOk s) (hv : virt < 2 ^ 47) {phys : ℕ}
    (hn : Spare s (phys / 4096)) (hf : flags.testBit 0 = true)
    (ho : (EitanOS.vmmMapPage s virt phys flags).2.pmm.outOfLowFrames = false)
    (hacc : Accounts {phys / 4096} s₀ s) (ha : ¬ Apart s₀ (phys / 4096))
    (hb : view s (virt / 4096) = none) :
    ∃ s', EitanOS.vmmMapPage s virt phys flags = (true, s') ∧ LowHalfOk s' ∧ Accounts ∅ s₀ s' ∧
      KeepsLinks s s' ∧ view s' = Function.update (view s) (virt / 4096)
        (some (phys / 4096, (PageEntry.ofFlags flags).flags)) := by
  obtain ⟨hmap, hok⟩ := h.vmmMapPage hv hn hf ho
  rw [PageMap.map, hb] at hmap
  obtain ⟨htrue, hview⟩ := Prod.mk.inj hmap
  obtain ⟨pt, s', e, hs, hacc', hk, hg⟩ := h.vmmMapPage_table hv ho
  refine ⟨_, Prod.ext htrue rfl, hok, ?_, ?_, hview⟩
  · rw [e]
    exact hs.ok.mapEntry_accounts hv hg (hs.spare _ hn) hf (hacc.trans hacc') ha
      ((congrFun hs.view_eq _).trans hb)
  · rw [e]
    exact hk.trans (mapEntry_keepsLinks hs.ok.separate hg phys flags)

/-- **One round of `vmm_alloc`**: it takes the page, or it fails because the page is bound. -/
theorem allocLoop_succ (h : LowHalfOk s) (hr : UserRange a b) (hf : flags.testBit 0 = true)
    (hi : i < pageAmount a b)
    (ho : (allocLoop s a flags (n + 1) i).2.pmm.outOfLowFrames = false) :
    (view s (a / 4096 + i) = none ∧ ∃ f s₁,
        EitanOS.allocLoop s a flags (n + 1) i = EitanOS.allocLoop s₁ a flags n (i + 1) ∧
        LowHalfOk s₁ ∧ Accounts ∅ s s₁ ∧ KeepsLinks s s₁ ∧ pmmGetFrame s.pmm f = false ∧ f < 2 ^ 28 ∧
        view s₁ = Function.update (view s) (a / 4096 + i)
          (some (f, (PageEntry.ofFlags flags).flags))) ∨
      (view s (a / 4096 + i) ≠ none ∧ ∃ s₁,
        EitanOS.allocLoop s a flags (n + 1) i = (some i, s₁) ∧ LowHalfOk s₁ ∧ Accounts ∅ s s₁ ∧
        view s₁ = view s) := by
  have hv := hr.pageAt_lt hi
  have hpage := hr.pageAt_div hi
  rw [EitanOS.allocLoop] at ho ⊢
  dsimp only at ho ⊢
  have ho₁ : (pmmAllocFrame s.pmm).2.outOfLowFrames = false := by
    split_ifs at ho
    · exact ho
    · exact vmmMapPage_outOfLowFrames (allocLoop_outOfLowFrames ho)
    · exact vmmMapPage_outOfLowFrames ho
  obtain ⟨hgrown, hspare, -⟩ := h.alloc ho₁
  obtain ⟨hacc, hna⟩ := accounts_alloc ho₁
  obtain ⟨-, -, hlow, hfree, -⟩ := pmmAllocFrame_spec ho₁
  rw [if_neg (pmmAllocFrame_ne_zero ho₁)] at ho ⊢
  generalize pmmAllocFrame s.pmm = r at ho hgrown hspare hacc hna hlow hfree ⊢
  obtain ⟨f, pmm⟩ := r
  dsimp only at ho hgrown hspare hacc hna hlow hfree ⊢
  have hk₁ : KeepsLinks s { s with pmm := pmm } := fun _ _ hs => hs
  generalize ({ s with pmm := pmm } : Vmm) = s₁ at ho hgrown hspare hacc hk₁ ⊢
  have ho₂ : (EitanOS.vmmMapPage s₁ (pageAt a i) (f * 4096) flags).2.pmm.outOfLowFrames = false := by
    split_ifs at ho
    · exact allocLoop_outOfLowFrames ho
    · exact ho
  have hview₁ : view s₁ (pageAt a i / 4096) = view s (a / 4096 + i) := by
    rw [hpage, hgrown.view_eq]
  by_cases hb : view s (a / 4096 + i) = none
  · have hfr : f * 4096 / 4096 = f := Nat.mul_div_cancel _ (by decide)
    obtain ⟨s₂, e, hok, hacc₂, hk₂, hview⟩ := hgrown.ok.vmmMapPage_free hv (by rwa [hfr]) hf ho₂
      (by rwa [hfr]) (by rwa [hfr]) (hview₁.trans hb)
    rw [hfr, hpage, hgrown.view_eq] at hview
    refine .inl ⟨hb, f, s₂, ?_, hok, hacc₂, hk₁.trans hk₂, hfree, hlow, hview⟩
    rw [e, if_pos rfl]
  · obtain ⟨s₂, e, hs₂, hacc₂⟩ := hgrown.ok.vmmMapPage_bound hv ho₂ (hview₁ ▸ hb)
    have hfresh := (hs₂.spare _ hspare).fresh
    refine .inr ⟨hb, { s₂ with pmm := pmmFreeFrame s₂.pmm f }, ?_, hs₂.ok.setFrame fun _ => hfresh,
      (hacc.trans hacc₂).giveBack hfree, hs₂.view_eq.trans hgrown.view_eq⟩
    rw [e]
    rfl

end LowHalfOk

theorem insert_union_Ico (T : Set ℕ) (q m : ℕ) :
    insert q T ∪ Set.Ico (q + 1) (q + 1 + m) = T ∪ Set.Ico q (q + (m + 1)) := by
  ext r
  simp only [Set.mem_union, Set.mem_insert_iff, Set.mem_Ico]
  by_cases hr : r ∈ T
  · simp [hr]
  · simp only [hr, or_false, false_or]
    omega

/-- **The first loop of `vmm_alloc`** takes pages up to the first one that is bound. -/
theorem Taken.allocLoop (h : Taken s₀ s T) (hr : UserRange a b) (hf : flags.testBit 0 = true)
    (hn : i + n ≤ pageAmount a b)
    (ho : (allocLoop s a flags n i).2.pmm.outOfLowFrames = false) :
    ∃ m ≤ n, Taken s₀ (EitanOS.allocLoop s a flags n i).2
        (T ∪ Set.Ico (a / 4096 + i) (a / 4096 + i + m)) ∧
      (∀ j < m, view s (a / 4096 + i + j) = none) ∧
      ((EitanOS.allocLoop s a flags n i).1 = none ∧ m = n ∨
        (EitanOS.allocLoop s a flags n i).1 = some (i + m) ∧ m < n ∧
          view s (a / 4096 + i + m) ≠ none) := by
  induction n generalizing s T i with
  | zero =>
    refine ⟨0, le_rfl, ?_, fun _ hj => absurd hj (Nat.not_lt_zero _), .inl ⟨rfl, rfl⟩⟩
    rw [Nat.add_zero, Set.Ico_self, Set.union_empty]
    exact h
  | succ n ih =>
    rcases h.ok.allocLoop_succ hr hf (by omega) ho with
      ⟨hb, f, s₁, e, hok, hacc, -, hfree, hlow, hview⟩ | ⟨hb, s₁, e, hok, hacc, hview⟩
    · rw [e] at ho ⊢
      obtain ⟨m, hm, htaken, hnone, hres⟩ :=
        ih (h.insert hok hacc hb hview hfree hlow) (i := i + 1) (by omega) ho
      rw [← Nat.add_assoc, insert_union_Ico] at htaken
      have hlater : ∀ j, view s₁ (a / 4096 + (i + 1) + j) = view s (a / 4096 + i + (j + 1)) := by
        intro j
        rw [hview, Function.update_of_ne (by omega)]
        congr 1
        omega
      refine ⟨m + 1, by omega, htaken, fun j hj => ?_, ?_⟩
      · cases j with
        | zero => exact hb
        | succ j => exact (hlater j).symm.trans (hnone j (by omega))
      · rcases hres with ⟨e, hmn⟩ | ⟨e, hlt, hbound⟩
        · exact .inl ⟨e, by omega⟩
        · refine .inr ⟨by rw [e]; congr 1; omega, by omega, ?_⟩
          rwa [hlater] at hbound
    · rw [e]
      refine ⟨0, Nat.zero_le _, ?_, fun _ hj => absurd hj (Nat.not_lt_zero _),
        .inr ⟨rfl, Nat.succ_pos n, hb⟩⟩
      rw [Nat.add_zero, Set.Ico_self, Set.union_empty]
      refine ⟨hok, h.accounts.trans hacc, h.free, ?_, ?_, ?_⟩
      · rw [hview]
        exact h.bound
      · rw [hview]
        exact h.rest
      · unfold LowPage
        rw [hview]
        exact h.low

theorem UserRange.pageAt_mem (hr : UserRange a b) (hi : i < pageAmount a b) (hn : 0 < n)
    (hT : Set.Ico (a / 4096 + i) (a / 4096 + i + n) ⊆ T) : pageAt a i / 4096 ∈ T := by
  rw [hr.pageAt_div hi]
  exact hT ⟨le_rfl, by omega⟩

/-- **The loop of `vmm_free`** gives its pages back. -/
theorem Taken.unmapLoop (h : Taken s₀ s T) (h₀ : LowHalfOk s₀) (hr : UserRange a b)
    (hn : i + n ≤ pageAmount a b) (hT : Set.Ico (a / 4096 + i) (a / 4096 + i + n) ⊆ T) :
    Taken s₀ (unmapLoop s a n i) (T \ Set.Ico (a / 4096 + i) (a / 4096 + i + n)) := by
  induction n generalizing s T i with
  | zero =>
    rw [Nat.add_zero, Set.Ico_self, Set.sdiff_empty]
    exact h
  | succ n ih =>
    have hi : i < pageAmount a b := by omega
    have h₁ := h.unmapPage h₀ (hr.pageAt_lt hi) (hr.pageAt_mem hi (Nat.succ_pos n) hT)
    rw [hr.pageAt_div hi] at h₁
    have hT₁ : Set.Ico (a / 4096 + (i + 1)) (a / 4096 + (i + 1) + n) ⊆ T \ {a / 4096 + i} := by
      intro r hr'
      obtain ⟨hr₁, hr₂⟩ := hr'
      exact ⟨hT ⟨by omega, by omega⟩, fun e => by rw [Set.mem_singleton_iff] at e; omega⟩
    have hset : (T \ {a / 4096 + i}) \ Set.Ico (a / 4096 + (i + 1)) (a / 4096 + (i + 1) + n) =
        T \ Set.Ico (a / 4096 + i) (a / 4096 + i + (n + 1)) := by
      ext r
      simp only [Set.mem_sdiff, Set.mem_singleton_iff, Set.mem_Ico, and_assoc]
      exact and_congr_right fun _ => by omega
    rw [← hset]
    exact ih h₁ (by omega) hT₁

/-- **`vmm_edit_pages`** keeps the frames of the pages taken. -/
theorem Taken.editLoop (h : Taken s₀ s T) (hr : UserRange a b) (hf : flags.testBit 0 = true)
    (hn : i + n ≤ pageAmount a b) (hT : Set.Ico (a / 4096 + i) (a / 4096 + i + n) ⊆ T)
    (success : Bool) : Taken s₀ (editLoop s a flags n i success).2 T ∧
      ∀ q, (view (EitanOS.editLoop s a flags n i success).2 q).map Prod.fst =
        (view s q).map Prod.fst := by
  induction n generalizing s i success with
  | zero => exact ⟨h, fun _ => rfl⟩
  | succ n ih =>
    have hi : i < pageAmount a b := by omega
    obtain ⟨h₁, hfst⟩ := h.editPage (hr.pageAt_lt hi) hf (hr.pageAt_mem hi (Nat.succ_pos n) hT)
    have hT₁ : Set.Ico (a / 4096 + (i + 1)) (a / 4096 + (i + 1) + n) ⊆ T := fun r hr' =>
      hT ⟨by have := hr'.1; omega, by have := hr'.2; omega⟩
    obtain ⟨h₂, hfst'⟩ := ih h₁ (i := i + 1) (by omega) hT₁
      (success && (vmmEditPage s (pageAt a i) 0 flags).1)
    exact ⟨h₂, fun q => (hfst' q).trans (hfst q)⟩

/-- **`vmm_alloc` is all or nothing**, against any base state. -/
theorem Taken.allocPages (h : Taken s₀ s T) (h₀ : LowHalfOk s₀) (hr : UserRange a b)
    (hf : flags.testBit 0 = true) (ha : amount ≤ pageAmount a b)
    (ho : (allocPages s a flags amount).2.pmm.outOfLowFrames = false) :
    ((EitanOS.allocPages s a flags amount).1 = true ∧
        (∀ j < amount, view s (a / 4096 + j) = none) ∧
        Taken s₀ (EitanOS.allocPages s a flags amount).2
          (T ∪ Set.Ico (a / 4096) (a / 4096 + amount))) ∨
      (EitanOS.allocPages s a flags amount).1 = false ∧
        (∃ j < amount, view s (a / 4096 + j) ≠ none) ∧
        Taken s₀ (EitanOS.allocPages s a flags amount).2 T := by
  unfold EitanOS.allocPages at ho ⊢
  have hloop := h.allocLoop hr hf ((Nat.zero_add amount).le.trans ha)
  generalize EitanOS.allocLoop s a flags amount 0 = r at ho hloop ⊢
  obtain ⟨_ | failed, s₁⟩ := r
  · obtain ⟨m, -, htaken, hnone, ⟨-, rfl⟩ | ⟨e, -⟩⟩ := hloop ho
    · exact .inl ⟨rfl, hnone, htaken⟩
    · cases e
  · dsimp only at ho ⊢ hloop
    rw [unmapLoop_outOfLowFrames] at ho
    obtain ⟨m, -, htaken, hnone, ⟨e, -⟩ | ⟨e, hlt, hbound⟩⟩ := hloop ho
    · cases e
    · obtain rfl : failed = m := by
        rw [Nat.zero_add] at e
        exact Option.some.inj e
      have hback := htaken.unmapLoop h₀ hr (i := 0) (n := failed) (by omega) Set.subset_union_right
      -- the pages taken in this call are not among those taken before
      have hset : (T ∪ Set.Ico (a / 4096 + 0) (a / 4096 + 0 + failed)) \
          Set.Ico (a / 4096 + 0) (a / 4096 + 0 + failed) = T := by
        refine Set.union_sdiff_cancel_right fun r hr' => h.notMem ?_ hr'.1
        obtain ⟨hq₁, hq₂⟩ := hr'.2
        have := hnone (r - a / 4096) (by omega)
        rwa [show a / 4096 + 0 + (r - a / 4096) = r by omega] at this
      rw [hset] at hback
      exact .inr ⟨rfl, ⟨failed, hlt, hbound⟩, hback⟩

/-! ## Mapping a run of pages -/

/-- The `n` pages from `page` on were not bound in `s` and are in `s'`; the others are as they
were. -/
structure Filled (s s' : Vmm) (page n : ℕ) : Prop where
  ok : LowHalfOk s'
  free : ∀ j < n, view s (page + j) = none
  bound : ∀ j < n, (view s' (page + j)).isSome
  rest : ∀ q, (∀ j < n, q ≠ page + j) → view s' q = view s q
  low : ∀ j < n, LowPage s' (page + j)

theorem Filled.refl (h : LowHalfOk s) (page : ℕ) : Filled s s page 0 :=
  ⟨h, fun _ hj => absurd hj (Nat.not_lt_zero _), fun _ hj => absurd hj (Nat.not_lt_zero _),
    fun _ _ => rfl, fun _ hj => absurd hj (Nat.not_lt_zero _)⟩

theorem Filled.view_low {page : ℕ} (h : Filled s s' page n) (hs : (view s).Low) : (view s').Low := by
  intro q b hb
  by_cases hq : ∀ j < n, q ≠ page + j
  · rw [h.rest q hq] at hb
    exact hs q b hb
  · push Not at hq
    obtain ⟨j, hj, rfl⟩ := hq
    exact h.low j hj b hb

theorem Taken.filled {page : ℕ} (h : Taken s s' (Set.Ico page (page + n))) : Filled s s' page n := by
  have hmem : ∀ j < n, page + j ∈ Set.Ico page (page + n) := fun j hj =>
    ⟨Nat.le_add_right _ _, by omega⟩
  refine ⟨h.ok, fun j hj => h.free _ (hmem j hj), fun j hj => ?_, fun q hq => h.rest q fun hm => ?_,
    fun j hj => h.low _ (hmem j hj)⟩
  · obtain ⟨x, hx, -⟩ := h.bound _ (hmem j hj)
    rw [hx]
    rfl
  · obtain ⟨h₁, h₂⟩ := hm
    exact hq (q - page) (by omega) (by omega)

namespace LowHalfOk

/-- **The loop of `vmm_free`** removes its pages and marks their frames as free. -/
theorem unmapLoop (h : LowHalfOk s) (hr : UserRange a b) (hn : i + n ≤ pageAmount a b)
    (hlow : ∀ j < n, LowPage s (a / 4096 + i + j)) :
    (∀ q, (∀ j < n, q ≠ a / 4096 + i + j) → view (unmapLoop s a n i) q = view s q) ∧
      ∀ f, pmmGetFrame (EitanOS.unmapLoop s a n i).pmm f = true ↔ pmmGetFrame s.pmm f = true ∧
        ∀ j < n, (view s (a / 4096 + i + j)).map Prod.fst ≠ some f := by
  induction n generalizing s i with
  | zero => exact ⟨fun _ _ => rfl, fun f => (and_iff_left fun _ hj => absurd hj (Nat.not_lt_zero _)).symm⟩
  | succ n ih =>
    have hi : i < pageAmount a b := by omega
    have hpage : LowPage s (pageAt a i / 4096) := by
      rw [hr.pageAt_div hi]
      exact hlow 0 (Nat.succ_pos n)
    obtain ⟨hview, hframe, hok⟩ := h.vmmUnmapPage (hr.pageAt_lt hi) hpage
    have hview' := congrArg Prod.snd hview
    rw [hr.pageAt_div hi] at hview' hframe
    dsimp only at hview'
    have hsame : ∀ q, q ≠ a / 4096 + i →
        view (EitanOS.vmmUnmapPage s (pageAt a i)).2 q = view s q := by
      intro q hq
      rw [hview', PageMap.unmap]
      split
      · rfl
      · exact Function.update_of_ne hq _ _
    have hlater : ∀ j, view (EitanOS.vmmUnmapPage s (pageAt a i)).2 (a / 4096 + (i + 1) + j) =
        view s (a / 4096 + i + (j + 1)) := fun j => by
      rw [hsame _ (by omega)]
      congr 1
      omega
    obtain ⟨hrest, hframes⟩ := ih hok (i := i + 1) (by omega) fun j hj => by
      unfold LowPage
      rw [hlater]
      exact hlow (j + 1) (by omega)
    refine ⟨fun q hq => ?_, fun f => (hframes f).trans ?_⟩
    · exact (hrest q fun j hj e => hq (j + 1) (by omega) (by omega)).trans
        (hsame q fun e => hq 0 (by omega) e)
    · simp only [hlater, hframe, Nat.forall_lt_succ_left', Nat.add_zero]
      split_ifs with e
      · simp [e]
      · simp [e]

/-- **`vmm_alloc` is all or nothing.** -/
theorem allocPages (h : LowHalfOk s) (hr : UserRange a b) (hf : flags.testBit 0 = true)
    (ha : amount ≤ pageAmount a b)
    (ho : (allocPages s a flags amount).2.pmm.outOfLowFrames = false) :
    ((EitanOS.allocPages s a flags amount).1 = true ∧
        Filled s (EitanOS.allocPages s a flags amount).2 (a / 4096) amount) ∨
      (EitanOS.allocPages s a flags amount).1 = false ∧
        LowHalfOk (EitanOS.allocPages s a flags amount).2 ∧
        view (EitanOS.allocPages s a flags amount).2 = view s ∧
        ∃ j < amount, view s (a / 4096 + j) ≠ none := by
  rcases (Taken.refl h).allocPages h hr hf ha ho with ⟨htrue, -, ht⟩ | ⟨hfalse, hb, ht⟩
  · rw [Set.empty_union] at ht
    exact .inl ⟨htrue, ht.filled⟩
  · exact .inr ⟨hfalse, ht.ok, funext fun q => ht.rest q (Set.notMem_empty q), hb⟩

/-- **`vmm_edit_pages`** gives its pages new flags and the frames they have. -/
theorem editLoop (h : LowHalfOk s) (hr : UserRange a b) (hf : flags.testBit 0 = true)
    (hn : i + n ≤ pageAmount a b) (hlow : ∀ j < n, LowPage s (a / 4096 + i + j)) (success : Bool) :
    LowHalfOk (editLoop s a flags n i success).2 ∧
      KeepsLinks s (EitanOS.editLoop s a flags n i success).2 ∧
      (∀ q, (∀ j < n, q ≠ a / 4096 + i + j) →
        view (EitanOS.editLoop s a flags n i success).2 q = view s q) ∧
      ∀ j < n, view (EitanOS.editLoop s a flags n i success).2 (a / 4096 + i + j) =
        (view s (a / 4096 + i + j)).map fun x => (x.1, (PageEntry.ofFlags flags).flags) := by
  induction n generalizing s i success with
  | zero => exact ⟨h, .refl s, fun _ _ => rfl, fun _ hj => absurd hj (Nat.not_lt_zero _)⟩
  | succ n ih =>
    have hi : i < pageAmount a b := by omega
    have hv := hr.pageAt_lt hi
    have hpage : LowPage s (pageAt a i / 4096) := by
      rw [hr.pageAt_div hi]
      exact hlow 0 (Nat.succ_pos n)
    obtain ⟨hedit, hok⟩ := h.vmmEditPage hv hf hpage
    have hview := congrArg Prod.snd hedit
    rw [hr.pageAt_div hi] at hview
    dsimp only at hview
    have hsame : ∀ q, q ≠ a / 4096 + i →
        view (EitanOS.vmmEditPage s (pageAt a i) 0 flags).2 q = view s q := by
      intro q hq
      rw [hview, PageMap.edit]
      split
      · rfl
      · exact Function.update_of_ne hq _ _
    have hself : view (EitanOS.vmmEditPage s (pageAt a i) 0 flags).2 (a / 4096 + i) =
        (view s (a / 4096 + i)).map fun x => (x.1, (PageEntry.ofFlags flags).flags) := by
      rw [hview, PageMap.edit]
      split
      · rename_i e
        show view s (a / 4096 + i) = _
        rw [e]
        rfl
      · rename_i x e
        rw [e]
        exact Function.update_self ..
    have hlater : ∀ j < n, LowPage (EitanOS.vmmEditPage s (pageAt a i) 0 flags).2
        (a / 4096 + (i + 1) + j) := fun j hj b hb => by
      rw [hsame _ (by omega), show a / 4096 + (i + 1) + j = a / 4096 + i + (j + 1) by omega] at hb
      exact hlow (j + 1) (by omega) b hb
    obtain ⟨hok', hk, hrest, hpages⟩ := ih hok (i := i + 1) (by omega) hlater
      (success && (EitanOS.vmmEditPage s (pageAt a i) 0 flags).1)
    rw [EitanOS.editLoop]
    refine ⟨hok', (vmmEditPage_keepsLinks h hv flags).trans hk, fun q hq => ?_, fun j hj => ?_⟩
    · rw [hrest q fun j hj e => hq (j + 1) (by omega) (by omega),
        hsame q (hq 0 (Nat.succ_pos n))]
    · cases j with
      | zero => exact (hrest (a / 4096 + i) fun j _ => by omega).trans hself
      | succ j =>
        have hq : a / 4096 + i + (j + 1) = a / 4096 + (i + 1) + j := by omega
        rw [hq, hpages j (by omega), hsame _ (by omega)]

/-- **The first loop of `vmm_alloc`**, when it does not fail, binds its pages with the flags given and
keeps what is bound. -/
theorem allocLoop_flags (h : LowHalfOk s) (hr : UserRange a b) (hf : flags.testBit 0 = true)
    (hn : i + n ≤ pageAmount a b) (ho : (allocLoop s a flags n i).2.pmm.outOfLowFrames = false)
    (e : (EitanOS.allocLoop s a flags n i).1 = none) :
    KeepsLinks s (EitanOS.allocLoop s a flags n i).2 ∧
      (∀ q x, view s q = some x → view (EitanOS.allocLoop s a flags n i).2 q = some x) ∧
      ∀ j < n, ∃ f, view (EitanOS.allocLoop s a flags n i).2 (a / 4096 + i + j) =
        some (f, (PageEntry.ofFlags flags).flags) := by
  induction n generalizing s i with
  | zero => exact ⟨.refl s, fun _ _ hq => hq, fun _ hj => absurd hj (Nat.not_lt_zero _)⟩
  | succ n ih =>
    rcases h.allocLoop_succ hr hf (by omega) ho with
      ⟨hb, f, s₁, e₁, hok, -, hk, -, -, hview⟩ | ⟨-, s₁, e₁, -⟩
    · rw [e₁] at ho e ⊢
      obtain ⟨hk', hkeep, hpages⟩ := ih hok (i := i + 1) (by omega) ho e
      refine ⟨hk.trans hk', fun q x hq => hkeep q x ?_, fun j hj => ?_⟩
      · have hne : q ≠ a / 4096 + i := by
          rintro rfl
          rw [hb] at hq
          cases hq
        rw [hview, Function.update_of_ne hne, hq]
      · cases j with
        | zero =>
          refine ⟨f, hkeep _ _ ?_⟩
          rw [hview]
          exact Function.update_self ..
        | succ j =>
          obtain ⟨f', hf'⟩ := hpages j (by omega)
          exact ⟨f', by rw [← hf']; congr 1; omega⟩
    · rw [e₁] at e
      cases e

end LowHalfOk

/-- The `n` pages from `page` on were mapped with the given flags. -/
structure Allocated (s s' : Vmm) (page n flags : ℕ) : Prop extends Filled s s' page n where
  keepsLinks : KeepsLinks s s'
  flags_eq : ∀ j < n, ∃ f, view s' (page + j) = some (f, (PageEntry.ofFlags flags).flags)

/-- **`vmm_alloc` of pages that are not bound**, while no allocation returns `null`. -/
theorem LowHalfOk.allocated (h : LowHalfOk s) (hr : UserRange a b) (hf : flags.testBit 0 = true)
    (ha : amount ≤ pageAmount a b) (ho : (EitanOS.allocPages s a flags amount).2.pmm.outOfLowFrames = false)
    (hfree : ∀ j < amount, view s (a / 4096 + j) = none) :
    (EitanOS.allocPages s a flags amount).1 = true ∧
      Allocated s (EitanOS.allocPages s a flags amount).2 (a / 4096) amount flags := by
  rcases h.allocPages hr hf ha ho with ⟨htrue, hfill⟩ | ⟨-, -, -, j, hj, hbound⟩
  · have hloop := h.allocLoop_flags hr hf ((Nat.zero_add amount).le.trans ha)
    unfold EitanOS.allocPages at ho htrue hfill ⊢
    generalize EitanOS.allocLoop s a flags amount 0 = r at ho htrue hfill hloop ⊢
    obtain ⟨_ | failed, s'⟩ := r
    · obtain ⟨hk, -, hpages⟩ := hloop ho rfl
      exact ⟨rfl, hfill, hk, hpages⟩
    · cases htrue
  · exact absurd (hfree j hj) hbound

/-! ## Enough frames -/

/-- How many frames below `2 ^ 28` are free. -/
def freeFrames (p : Pmm) : ℕ :=
  ((Finset.range (min p.totalFrames (2 ^ 28))).filter fun f => pmmGetFrame p f = false).card

/-- There are `n` free frames below `2 ^ 28`, frame 0 is none of them, and no other frame has been
returned. -/
structure Stocked (p : Pmm) (n : ℕ) : Prop where
  zero : pmmGetFrame p 0 = true
  enough : n ≤ freeFrames p
  record : p.outOfLowFrames = false

namespace Stocked

variable {p : Pmm}

theorem mono (h : Stocked p n) (hm : m ≤ n) : Stocked p m := ⟨h.zero, hm.trans h.enough, h.record⟩

theorem setFrame (h : Stocked p (n + 1)) (f : ℕ) : Stocked (pmmSetFrame p f true) n := by
  refine ⟨?_, ?_, h.record⟩
  · rw [getFrame_setFrame, h.zero, ite_self]
  · have hsub : ((Finset.range (min p.totalFrames (2 ^ 28))).filter
        fun g => pmmGetFrame p g = false).erase f ⊆
        (Finset.range (min p.totalFrames (2 ^ 28))).filter
          fun g => pmmGetFrame (pmmSetFrame p f true) g = false := by
      intro g hg
      obtain ⟨hne, hg⟩ := Finset.mem_erase.1 hg
      obtain ⟨hlt, hfree⟩ := Finset.mem_filter.1 hg
      refine Finset.mem_filter.2 ⟨hlt, ?_⟩
      rw [getFrame_setFrame, if_neg hne, hfree]
    have hcard := Finset.card_le_card hsub
    have hpred := Finset.pred_card_le_card_erase
      (s := (Finset.range (min p.totalFrames (2 ^ 28))).filter fun g => pmmGetFrame p g = false) (a := f)
    have henough := h.enough
    unfold freeFrames at henough ⊢
    rw [setFrame_totalFrames]
    omega

theorem reserve (h : Stocked p (n + 1)) (f : ℕ) : Stocked (reserveUnlessReserved p f).2 n := by
  unfold reserveUnlessReserved pmmReserveFrame
  split_ifs
  · exact h.mono (Nat.le_succ n)
  · exact h.mono (Nat.le_succ n)
  · exact h.setFrame f

/-- **`pmm_alloc_frame` takes one frame.** -/
theorem alloc (h : Stocked p (n + 1)) : Stocked (pmmAllocFrame p).2 n := by
  have hpos : 0 < freeFrames p := Nat.lt_of_lt_of_le (Nat.succ_pos n) h.enough
  obtain ⟨f, hf⟩ := Finset.card_pos.1 hpos
  obtain ⟨hlt, hfree⟩ := Finset.mem_filter.1 hf
  have hlt := lt_min_iff.1 (Finset.mem_range.1 hlt)
  -- the lowest free frame is the one returned, and it is no higher than `f`
  have hex : ∃ g, pmmGetFrame p g = false := ⟨f, hfree⟩
  have hle : Nat.find hex ≤ f := Nat.find_min' hex hfree
  have h0 : Nat.find hex ≠ 0 := fun e => by
    have := Nat.find_spec hex
    rw [e, h.zero] at this
    cases this
  have hlow : Nat.find hex < 2 ^ 28 := hle.trans_lt hlt.2
  rw [pmmAllocFrame_eq h0 (hle.trans_lt hlt.1) (Nat.find_spec hex) fun g hg =>
    Bool.eq_true_of_not_eq_false (Nat.find_min hex hg), Pmm.note, if_pos hlow]
  exact h.setFrame _

theorem nextTable {g : ℕ} (h : Stocked s.pmm (n + 1)) : Stocked (nextTable s g i).2.pmm n := by
  unfold EitanOS.nextTable
  dsimp only
  split_ifs
  · exact h.mono (Nat.le_succ n)
  · exact h.alloc
  · exact h.alloc

theorem withTable {g : ℕ} {next : ℕ → Vmm → Bool × Vmm} (h : Stocked s.pmm (n + 1))
    (hnext : ∀ t s', Stocked s'.pmm n → Stocked (next t s').2.pmm m) (hm : m ≤ n) :
    Stocked (withTable (EitanOS.nextTable s g i) next).2.pmm m := by
  have hs := h.nextTable (g := g) (i := i)
  generalize EitanOS.nextTable s g i = r at hs ⊢
  obtain ⟨_ | t, s'⟩ := r
  · exact hs.mono hm
  · exact hnext t s' hs

theorem mapEntry {pt phys : ℕ} (h : Stocked s.pmm (n + 1)) :
    Stocked (mapEntry s pt virt phys flags).2.pmm n := by
  have hres := h.reserve (phys / 4096)
  unfold EitanOS.mapEntry
  dsimp only
  split_ifs
  · exact h.mono (Nat.le_succ n)
  · exact hres
  · exact h.mono (Nat.le_succ n)

theorem vmmMapPage {phys : ℕ} (h : Stocked s.pmm (n + 4)) :
    Stocked (vmmMapPage s virt phys flags).2.pmm n := by
  refine h.withTable (fun pdpt s₁ h₁ => ?_) (by omega)
  refine h₁.withTable (fun pd s₂ h₂ => ?_) (by omega)
  exact h₂.withTable (fun pt s₃ h₃ => h₃.mapEntry) (by omega)

/-- **Five frames for each page are enough.** -/
theorem allocLoop (h : Stocked s.pmm (m + 5 * n)) :
    (allocLoop s a flags n i).2.pmm.outOfLowFrames = false ∧
      ((EitanOS.allocLoop s a flags n i).1 = none →
        Stocked (EitanOS.allocLoop s a flags n i).2.pmm m) := by
  induction n generalizing s i with
  | zero => exact ⟨h.record, fun _ => h⟩
  | succ n ih =>
    have h₁ : Stocked (pmmAllocFrame s.pmm).2 (m + 5 * n + 4) :=
      (h.mono (by omega : m + 5 * n + 4 + 1 ≤ _)).alloc
    rw [EitanOS.allocLoop]
    dsimp only
    generalize pmmAllocFrame s.pmm = r at h₁ ⊢
    obtain ⟨f, pmm⟩ := r
    have h₂ : Stocked (EitanOS.vmmMapPage { s with pmm := pmm } (pageAt a i) (f * 4096) flags).2.pmm
        (m + 5 * n) := vmmMapPage h₁
    dsimp only
    split_ifs
    · exact ⟨h₁.record, fun e => by cases e⟩
    · exact ih h₂
    · exact ⟨h₂.record, fun e => by cases e⟩

theorem allocPages (h : Stocked s.pmm (m + 5 * amount)) :
    (allocPages s a flags amount).2.pmm.outOfLowFrames = false ∧
      ((EitanOS.allocPages s a flags amount).1 = true →
        Stocked (EitanOS.allocPages s a flags amount).2.pmm m) := by
  have hloop : (EitanOS.allocLoop s a flags amount 0).2.pmm.outOfLowFrames = false ∧ _ := h.allocLoop
  unfold EitanOS.allocPages
  generalize EitanOS.allocLoop s a flags amount 0 = r at hloop ⊢
  obtain ⟨_ | failed, s'⟩ := r
  · exact ⟨hloop.1, fun _ => hloop.2 rfl⟩
  · exact ⟨(unmapLoop_outOfLowFrames _ _ _ _).trans hloop.1, fun e => by cases e⟩

end Stocked

/-- **With enough frames and free pages `vmm_alloc` fills its pages.** -/
theorem LowHalfOk.allocPages_of_free (h : LowHalfOk s) (hr : UserRange a b)
    (hf : flags.testBit 0 = true) (ha : amount ≤ pageAmount a b)
    (hs : Stocked s.pmm (m + 5 * amount)) (hfree : ∀ j < amount, view s (a / 4096 + j) = none) :
    (EitanOS.allocPages s a flags amount).1 = true ∧
      Stocked (EitanOS.allocPages s a flags amount).2.pmm m ∧
      Filled s (EitanOS.allocPages s a flags amount).2 (a / 4096) amount := by
  obtain ⟨ho, hstock⟩ : (EitanOS.allocPages s a flags amount).2.pmm.outOfLowFrames = false ∧ _ :=
    hs.allocPages
  rcases h.allocPages hr hf ha ho with ⟨htrue, hfill⟩ | ⟨-, -, -, j, hj, hbound⟩
  · exact ⟨htrue, hstock htrue, hfill⟩
  · exact absurd (hfree j hj) hbound

theorem LowHalfOk.vmmAlloc_of_free (h : LowHalfOk s) (hr : UserRange a b)
    (hf : flags.testBit 0 = true) (hs : Stocked s.pmm (m + 5 * pageAmount a b))
    (hfree : ∀ j < pageAmount a b, view s (a / 4096 + j) = none) :
    (vmmAlloc s a b flags).1 = true ∧ Stocked (vmmAlloc s a b flags).2.pmm m ∧
      Filled s (vmmAlloc s a b flags).2 (a / 4096) (pageAmount a b) :=
  h.allocPages_of_free hr hf le_rfl hs hfree

theorem translate_current (hv : virt < 2 ^ 47) :
    translate s s.current virt = (view s (virt / 4096)).map Prod.fst := by
  unfold translate
  rw [view_page hv]
  cases tableOf s s.current virt with
  | none => rfl
  | some pt =>
    simp only [Option.bind_some, leadsTo, PageEntry.target, PageEntry.binding]
    split_ifs
    · rfl
    · rfl

end EitanOS
