import EitanOS.Memory.Exclusive

/-!
# Accounts of frames

What has happened since a base state: which frames are in use now and were not then, and that nothing
outside of the user half has changed.

* `Apart`: neither free nor reached in the user half, as the page tables of the kernel half are.
* **`Accounts`**: frames that were in use still are; the others in use are reached in the user half,
  or `held` by the running code; frames apart are as they were.
* `Accounts.zeroFrame`, `Accounts.link`, `Accounts.unlink`, `Accounts.relabel`: one lemma for each edit
  of the tables.
* **`Accounts.translate_upper`**: the kernel half translates as it did.
-/

namespace EitanOS

open Forest

/-- The tables and pages below `current_PML4` in the user half. -/
abbrev Vmm.half (s : Vmm) : Forest ℕ ℕ := userForest s {s.current}

/-- A frame that cannot be allocated and is no table and no page of the user half. -/
structure Apart (s : Vmm) (n : ℕ) : Prop where
  used : n < s.pmm.totalFrames → pmmGetFrame s.pmm n = true
  fresh : s.half.Fresh n

/-- **What has happened since `s₀`.** -/
structure Accounts (held : Set ℕ) (s₀ s : Vmm) : Prop where
  current : s.current = s₀.current
  total : s.pmm.totalFrames = s₀.pmm.totalFrames
  mono : ∀ f, pmmGetFrame s₀.pmm f = true → pmmGetFrame s.pmm f = true
  new : ∀ f, pmmGetFrame s.pmm f = true →
    pmmGetFrame s₀.pmm f = true ∨ f ∈ held ∨ ∃ l, s.half.Node s.current l f
  nodes : ∀ l f, s₀.half.Node s₀.current l f → s.half.Node s.current l f
  apart : ∀ n, Apart s₀ n → Apart s n ∧ s.frames n = s₀.frames n
  upper : ∀ i, 256 ≤ i → s.frames s₀.current i = s₀.frames s₀.current i

variable {held : Set ℕ} {s₀ s s' : Vmm} {g i n f : ℕ} {l : List ℕ} {e : PageEntry}

theorem Accounts.refl (s : Vmm) : Accounts ∅ s s :=
  ⟨rfl, rfl, fun _ h => h, fun _ h => .inl h, fun _ _ h => h, fun _ h => ⟨h, rfl⟩, fun _ _ => rfl⟩

theorem Accounts.trans (h : Accounts held s₀ s) (h' : Accounts ∅ s s') : Accounts held s₀ s' := by
  refine ⟨h'.current.trans h.current, h'.total.trans h.total, fun f hf => h'.mono f (h.mono f hf),
    fun f hf => ?_, fun l f hf => h'.nodes l f (h.nodes l f hf), fun n hn => ?_, fun i hi => ?_⟩
  · rcases h'.new f hf with hf | hf | hf
    · exact (h.new f hf).imp_right fun hf => hf.imp_right fun ⟨l, hl⟩ => ⟨l, h'.nodes l f hl⟩
    · exact absurd hf (Set.notMem_empty f)
    · exact .inr (.inr hf)
  · obtain ⟨ha, hf⟩ := h.apart n hn
    obtain ⟨ha', hf'⟩ := h'.apart n ha
    exact ⟨ha', hf'.trans hf⟩
  · have hup := h'.upper i hi
    rw [h.current] at hup
    exact hup.trans (h.upper i hi)

theorem not_apart_of_free (hn : pmmGetFrame s.pmm n = false) (hlt : n < s.pmm.totalFrames) :
    ¬ Apart s n := fun h => by
  rw [h.used hlt] at hn
  cases hn

/-! ## Marking frames -/

theorem accounts_take (s : Vmm) (n : ℕ) :
    Accounts {n} s { s with pmm := pmmSetFrame s.pmm n true } := by
  have hset : ∀ f, pmmGetFrame (pmmSetFrame s.pmm n true) f = if f = n then true else
      pmmGetFrame s.pmm f := fun f => getFrame_setFrame s.pmm n f true
  have hmono : ∀ f, pmmGetFrame s.pmm f = true → pmmGetFrame (pmmSetFrame s.pmm n true) f = true :=
    fun f hf => by rw [hset, hf, ite_self]
  refine ⟨rfl, rfl, hmono, fun f hf => ?_, fun _ _ h => h,
    fun m hm => ⟨⟨fun hlt => hmono m (hm.used hlt), hm.fresh⟩, rfl⟩, fun _ _ => rfl⟩
  have hf : pmmGetFrame (pmmSetFrame s.pmm n true) f = true := hf
  rw [hset] at hf
  split_ifs at hf with e
  · exact .inr (.inl e)
  · exact .inl hf

/-- **`pmm_alloc_frame`** takes a frame that was free. -/
theorem accounts_alloc (ho : (pmmAllocFrame s.pmm).2.outOfLowFrames = false) :
    Accounts {(pmmAllocFrame s.pmm).1} s { s with pmm := (pmmAllocFrame s.pmm).2 } ∧
      ¬ Apart s (pmmAllocFrame s.pmm).1 := by
  obtain ⟨-, hlt, -, hfree, heq⟩ := pmmAllocFrame_spec ho
  rw [heq]
  exact ⟨accounts_take s _, not_apart_of_free hfree hlt⟩

theorem Accounts.giveBack (h : Accounts {n} s₀ s) (hfree : pmmGetFrame s₀.pmm n = false) :
    Accounts ∅ s₀ { s with pmm := pmmSetFrame s.pmm n false } := by
  have hset : ∀ f, f ≠ n → pmmGetFrame (pmmSetFrame s.pmm n false) f = pmmGetFrame s.pmm f :=
    fun f hf => by rw [getFrame_setFrame, if_neg hf]
  have hmono : ∀ f, pmmGetFrame s₀.pmm f = true → pmmGetFrame (pmmSetFrame s.pmm n false) f = true := by
    intro f hf
    have hne : f ≠ n := by
      rintro rfl
      rw [hfree] at hf
      cases hf
    rw [hset f hne, h.mono f hf]
  refine ⟨h.current, h.total, hmono, fun f hf => ?_, h.nodes, fun m hm => ?_, h.upper⟩
  · have hf : pmmGetFrame (pmmSetFrame s.pmm n false) f = true := hf
    have hne : f ≠ n := by
      rintro rfl
      rw [getFrame_setFrame, if_pos rfl] at hf
      cases hf
    rw [hset f hne] at hf
    exact (h.new f hf).imp_right fun hf => .inr (hf.resolve_left hne)
  · obtain ⟨ha, hfr⟩ := h.apart m hm
    exact ⟨⟨fun hlt' => hmono m (hm.used (h.total ▸ hlt')), ha.fresh⟩, hfr⟩

/-! ## Editing tables -/

theorem setEntry_outside (hs : s.half.Separate) (hg : s.half.Node s.current l g)
    (hi : s.half.allowed l.length i) (e : PageEntry) :
    (∀ n, s.half.Fresh n → (s.setEntry g i e).frames n = s.frames n) ∧
      ∀ j, 256 ≤ j → (s.setEntry g i e).frames s.current j = s.frames s.current j := by
  refine ⟨fun n hn => funext fun j => ?_, fun j hj => ?_⟩
  · rw [frames_setEntry, if_neg]
    rintro ⟨rfl, -⟩
    exact hn _ _ hg
  · rw [frames_setEntry, if_neg]
    rintro ⟨rfl, rfl⟩
    -- an entry of `current_PML4` itself is in the lower half
    obtain ⟨-, rfl⟩ := hs _ _ _ _ _ hg (.root rfl)
    have := hi.2 rfl
    omega

theorem Accounts.zeroFrame (h : Accounts held s₀ s) (hn : s.half.Fresh n) (ha : ¬ Apart s₀ n) :
    Accounts held s₀ (s.zeroFrame n) := by
  have hnode : ∀ {p l f}, (s.zeroFrame n).half.Node p l f ↔ s.half.Node p l f := zeroFrame_node hn
  have hsame : ∀ m, m ≠ n → (s.zeroFrame n).frames m = s.frames m := fun m hm =>
    funext fun j => by rw [frames_zeroFrame, if_neg hm]
  refine ⟨h.current, h.total, h.mono, fun f hf => ?_, fun l f hf => hnode.mpr (h.nodes l f hf),
    fun m hm => ?_, fun j hj => ?_⟩
  · exact (h.new f hf).imp_right fun hf => hf.imp_right fun ⟨l, hl⟩ => ⟨l, hnode.mpr hl⟩
  · obtain ⟨⟨hu, hfr⟩, hf⟩ := h.apart m hm
    have hmn : m ≠ n := fun e => ha (e ▸ hm)
    exact ⟨⟨hu, fun p l hl => hfr p l (hnode.mp hl)⟩, (hsame m hmn).trans hf⟩
  · have hcn : s₀.current ≠ n := fun e => hn s.current [] (by rw [← e, ← h.current]; exact .root rfl)
    rw [hsame _ hcn, h.upper j hj]

/-- **Linking the frame that was taken**, as a table or as a page. -/
theorem Accounts.link (h : Accounts {n} s₀ s) (hs : s.half.Separate)
    (hg : s.half.Node s.current l g) (hi : s.half.allowed l.length i)
    (hnode : ∀ p' l' f, (s.setEntry g i e).half.Node p' l' f ↔
      s.half.Node p' l' f ∨ p' = s.current ∧ l' = i :: l ∧ f = n)
    (ha : ¬ Apart s₀ n) : Accounts ∅ s₀ (s.setEntry g i e) := by
  obtain ⟨hout, hup⟩ := setEntry_outside hs hg hi e
  refine ⟨h.current, h.total, h.mono, fun f hf => ?_,
    fun l f hf => (hnode _ _ _).mpr (.inl (h.nodes l f hf)), fun m hm => ?_, fun j hj => ?_⟩
  · rcases h.new f hf with hf | rfl | ⟨l', hl'⟩
    · exact .inl hf
    · exact .inr (.inr ⟨i :: l, (hnode _ _ _).mpr (.inr ⟨rfl, rfl, rfl⟩)⟩)
    · exact .inr (.inr ⟨l', (hnode _ _ _).mpr (.inl hl')⟩)
  · obtain ⟨⟨hu, hfr⟩, hf⟩ := h.apart m hm
    refine ⟨⟨hu, fun p' l' hm' => ?_⟩, (hout m hfr).trans hf⟩
    rcases (hnode _ _ _).mp hm' with hm' | ⟨-, -, rfl⟩
    · exact hfr p' l' hm'
    · exact ha hm
  · rw [h.current] at hup
    exact (hup j hj).trans (h.upper j hj)

/-- **Unlinking a page** whose frame was free in the base state, and giving it back. -/
theorem Accounts.unlink (h : Accounts ∅ s₀ s) (hs : s.half.Separate)
    (hl : Unlinks s.half (s.setEntry g i e).half s.current l g i) (hi : s.half.allowed l.length i)
    (hf : leadsTo s g i = some f) (hfree : pmmGetFrame s₀.pmm f = false)
    (hu₀ : ∀ l f, s₀.half.Node s₀.current l f → pmmGetFrame s₀.pmm f = true) :
    Accounts ∅ s₀ { s.setEntry g i e with pmm := pmmSetFrame s.pmm f false } := by
  have hnode : ∀ {p' l' f'}, (s.setEntry g i e).half.Node p' l' f' ↔
      s.half.Node p' l' f' ∧ ¬ (p' = s.current ∧ l' = i :: l) := node_unlink hl hs
  obtain ⟨hout, hup⟩ := setEntry_outside hs hl.node hi e
  have hlt : l.length < s.half.depth := by
    have := hl.length
    omega
  have hpage : s.half.Node s.current (i :: l) f := .slot hl.node hlt hi hf
  have hne : ∀ f', pmmGetFrame s₀.pmm f' = true → f' ≠ f := by
    rintro f' hf' rfl
    rw [hfree] at hf'
    cases hf'
  have hmono : ∀ f', pmmGetFrame s₀.pmm f' = true →
      pmmGetFrame (pmmSetFrame s.pmm f false) f' = true := fun f' hf' => by
    rw [getFrame_setFrame, if_neg (hne f' hf'), h.mono f' hf']
  refine ⟨h.current, h.total, hmono, fun f' hf' => ?_, fun l' f' hf' => ?_, fun m hm => ?_,
    fun j hj => ?_⟩
  · have hf' : pmmGetFrame (pmmSetFrame s.pmm f false) f' = true := hf'
    rw [getFrame_setFrame] at hf'
    split_ifs at hf' with e'
    rcases h.new f' hf' with hf' | hf' | ⟨l', hl'⟩
    · exact .inl hf'
    · exact absurd hf' (Set.notMem_empty f')
    · refine .inr (.inr ⟨l', hnode.mpr ⟨hl', ?_⟩⟩)
      rintro ⟨-, rfl⟩
      exact e' (hpage.unique hl')
  · refine hnode.mpr ⟨h.nodes l' f' hf', ?_⟩
    rintro ⟨-, rfl⟩
    exact hne f' (hu₀ _ f' hf') (hpage.unique (h.nodes _ f' hf'))
  · obtain ⟨⟨-, hfr⟩, hframes⟩ := h.apart m hm
    exact ⟨⟨fun hlt' => hmono m (hm.used (h.total ▸ hlt')),
      fun p' l' hm' => hfr p' l' (hnode.mp hm').1⟩, (hout m hfr).trans hframes⟩
  · rw [h.current] at hup
    exact (hup j hj).trans (h.upper j hj)

/-- **Changing an entry but not where it leads.** -/
theorem Accounts.relabel (h : Accounts held s₀ s) (hs : s.half.Separate)
    (hg : s.half.Node s.current l g) (hi : s.half.allowed l.length i)
    (ht : e.target = leadsTo s g i) : Accounts held s₀ (s.setEntry g i e) := by
  have hhalf : (s.setEntry g i e).half = s.half := userForest_relabel ht
  obtain ⟨hout, hup⟩ := setEntry_outside hs hg hi e
  refine ⟨h.current, h.total, h.mono, fun f hf => ?_, fun l f hf => ?_, fun m hm => ?_, fun j hj => ?_⟩
  · rw [hhalf]
    exact h.new f hf
  · rw [hhalf]
    exact h.nodes l f hf
  · obtain ⟨⟨hu, hfr⟩, hframes⟩ := h.apart m hm
    refine ⟨⟨hu, ?_⟩, (hout m hfr).trans hframes⟩
    rw [hhalf]
    exact hfr
  · rw [h.current] at hup
    exact (hup j hj).trans (h.upper j hj)

/-! ## The kernel half -/

/-- The page tables below the kernel half of a PML4. -/
def kernelForest (s : Vmm) (kernel : ℕ) : Forest ℕ ℕ :=
  { tableForest s {kernel} with allowed := fun n i => i < 512 ∧ (n = 0 → 256 ≤ i) }

/-- The page tables of the kernel half below `current_PML4` are apart from the user half. -/
def KernelApart (s : Vmm) : Prop :=
  ∀ l f, l ≠ [] → (kernelForest s s.current).Node s.current l f → Apart s f

/-- **The kernel half keeps its entries**, those of the PML4 and those of the tables below it. -/
theorem Accounts.kernel_eq (h : Accounts held s₀ s) (hk : KernelApart s₀)
    (hn : (kernelForest s₀ s₀.current).Node s₀.current l f) (hi : l = [] → 256 ≤ i) :
    s.frames f i = s₀.frames f i := by
  by_cases hl : l = []
  · subst hl
    cases hn with
    | root _ => exact h.upper i (hi rfl)
  · rw [(h.apart f (hk l f hl hn)).2]

end EitanOS
