import EitanOS.Lib.Forest
import EitanOS.Memory.Paging

/-!
# Address spaces do not share frames

* `userForest`: what the user halves of the given PML4s reach. `tableForest`: what they reach as page
  tables, in both halves.
* **`LowTables.pageTable_eq`**: if the tables are in frames below `2 ^ 28`, the code finds the page
  table that the processor uses.
* `VmmOk`: no frame is reached twice, every frame reached is marked as used and below `2 ^ 28`, and the
  page tables of the kernel are used, apart and unchanged.
* Each step of the code keeps it: `VmmOk.link`, `VmmOk.unlink`, `VmmOk.relabel`, `VmmOk.addRoot`.
* **`run_exclusive`**: after every run of operations, in any order and over any number of address
  spaces, in which only frames below `2 ^ 28` are handed out.
* `high_frame_shared`: what happens with others.
-/

namespace EitanOS

open Forest

/-- The user halves: four levels, of which the first has 256 entries. -/
def userForest (s : Vmm) (roots : Set ℕ) : Forest ℕ ℕ where
  link := leadsTo s
  roots := roots
  allowed n i := i < 512 ∧ (n = 0 → i < 256)
  depth := 4

/-- The page tables below the given PML4s, in both halves. -/
def tableForest (s : Vmm) (roots : Set ℕ) : Forest ℕ ℕ where
  link f i := if (s.frames f i).present ∧ ¬ (s.frames f i).hugePage then
    some (s.frames f i).physicalAddr.toNat else none
  roots := roots
  allowed _ i := i < 512
  depth := 3

/-- `f` is a page table below one of the PML4s, or one of them. -/
def IsTable (s : Vmm) (roots : Set ℕ) (f : ℕ) : Prop := ∃ p l, (tableForest s roots).Node p l f

/-- `s₀` is the state to start from: all page tables of the kernel PML4 `k` are marked as used, and
its user half is empty. -/
structure StartOk (s₀ : Vmm) (k : ℕ) : Prop where
  used : ∀ f, IsTable s₀ {k} f → pmmGetFrame s₀.pmm f = true
  empty : ∀ i < 256, (s₀.frames k i).present = false

/-- **The separation invariant.** -/
structure VmmOk (s₀ : Vmm) (k : ℕ) (roots : Set ℕ) (s : Vmm) : Prop where
  kernel : k ∈ roots
  current : s.current ∈ roots
  separate : (userForest s roots).Separate
  used : ∀ p l f, (userForest s roots).Node p l f → pmmGetFrame s.pmm f = true
  kernelUsed : ∀ f, IsTable s₀ {k} f → pmmGetFrame s.pmm f = true
  apart : ∀ p l f, (userForest s roots).Node p l f → IsTable s₀ {k} f → f = k
  tables : ∀ f, IsTable s₀ {k} f → f ≠ k → s.frames f = s₀.frames f
  upper : ∀ p ∈ roots, ∀ i, 256 ≤ i → i < 512 → s.frames p i = s₀.frames k i
  low : ∀ p l f, (userForest s roots).Node p l f → l ≠ [] → f < 2 ^ 28

variable {s₀ s s' : Vmm} {k p g f n i : ℕ} {l : List ℕ} {roots : Set ℕ} {e : PageEntry}

/-- A frame below `2 ^ 28` that is marked as used, and not reached from anywhere. -/
structure Held (s₀ : Vmm) (k : ℕ) (roots : Set ℕ) (s : Vmm) (n : ℕ) : Prop where
  low : n < 2 ^ 28
  used : pmmGetFrame s.pmm n = true
  fresh : (userForest s roots).Fresh n
  apart : ¬ IsTable s₀ {k} n

theorem isTable_root : IsTable s₀ {k} k := ⟨k, [], .root rfl⟩

theorem agree_setEntry (s : Vmm) (roots : Set ℕ) (g i : ℕ) (e : PageEntry) :
    Agree (userForest s roots) (userForest (s.setEntry g i e) roots)
      fun g' i' => ¬ (g' = g ∧ i' = i) := by
  refine ⟨rfl, rfl, rfl, fun g' i' h => ?_⟩
  show ((s.setEntry g i e).frames g' i').target = (s.frames g' i').target
  rw [frames_setEntry, if_neg h]

theorem agree_zeroFrame (s : Vmm) (roots : Set ℕ) (n : ℕ) :
    Agree (userForest s roots) (userForest (s.zeroFrame n) roots) fun g _ => g ≠ n := by
  refine ⟨rfl, rfl, rfl, fun g i h => ?_⟩
  show ((s.zeroFrame n).frames g i).target = (s.frames g i).target
  rw [frames_zeroFrame, if_neg h]

theorem links_setEntry (hg : (userForest s roots).Node p l g) (hl : l.length < 4)
    (hi : (userForest s roots).allowed l.length i) (he : leadsTo s g i = none)
    (hn : (userForest s roots).Fresh n) (hz : l.length < 3 → ∀ j, leadsTo s n j = none)
    (ht : e.target = some n) :
    Links (userForest s roots) (userForest (s.setEntry g i e) roots) p l g i n := by
  refine ⟨agree_setEntry s roots g i e, hg, hl, hi, he, ?_, hn, fun hl' j _ => ?_⟩
  · show ((s.setEntry g i e).frames g i).target = some n
    rw [frames_setEntry, if_pos ⟨rfl, rfl⟩, ht]
  · exact hz (Nat.lt_of_succ_lt_succ hl') j

theorem unlinks_setEntry (hg : (userForest s roots).Node p l g) (hl : l.length = 3)
    (ht : e.target = none) :
    Unlinks (userForest s roots) (userForest (s.setEntry g i e) roots) p l g i := by
  refine ⟨agree_setEntry s roots g i e, hg, by rw [hl]; rfl, ?_⟩
  show ((s.setEntry g i e).frames g i).target = none
  rw [frames_setEntry, if_pos ⟨rfl, rfl⟩, ht]

theorem userForest_relabel (ht : e.target = leadsTo s g i) :
    userForest (s.setEntry g i e) roots = userForest s roots := by
  unfold userForest
  congr 1
  funext g' i'
  show ((s.setEntry g i e).frames g' i').target = (s.frames g' i').target
  rw [frames_setEntry]
  split_ifs with hgi
  · rw [ht, hgi.1, hgi.2]
    rfl
  · rfl

theorem zeroFrame_node (hn : (userForest s roots).Fresh n) :
    (userForest (s.zeroFrame n) roots).Node p l f ↔ (userForest s roots).Node p l f :=
  Node.iff_of_agree (agree_zeroFrame s roots n) fun p l _ _ hg _ _ e => hn p l (e ▸ hg)

theorem tableOf_node (hp : p ∈ roots) {virt pt : ℕ} (hv : virt < 2 ^ 47)
    (e : tableOf s p virt = some pt) :
    (userForest s roots).Node p [tableIndex 2 virt, tableIndex 3 virt, tableIndex 4 virt] pt := by
  obtain ⟨pdpt, e₄, e⟩ := Option.bind_eq_some_iff.1 e
  obtain ⟨pd, e₃, e₂⟩ := Option.bind_eq_some_iff.1 e
  have hpdpt : (userForest s roots).Node p [tableIndex 4 virt] pdpt :=
    .slot (.root hp) (by simp [userForest]) ⟨tableIndex_lt _ _, fun _ => tableIndex_four_lt hv⟩ e₄
  have hpd : (userForest s roots).Node p [tableIndex 3 virt, tableIndex 4 virt] pd :=
    .slot hpdpt (by simp [userForest]) ⟨tableIndex_lt _ _, fun e => by simp at e⟩ e₃
  exact .slot hpd (by simp [userForest]) ⟨tableIndex_lt _ _, fun e => by simp at e⟩ e₂

/-- The page tables below the PML4s, in the user halves, are in frames below `2 ^ 28`. -/
def LowTables (s : Vmm) (roots : Set ℕ) : Prop :=
  ∀ p l f, (userForest s roots).Node p l f → l ≠ [] → l.length ≤ 3 → f < 2 ^ 28

theorem LowTables.walkTable_eq (h : LowTables s roots) (hg : (userForest s roots).Node p l g)
    (hl : l.length < 3) (hi : (userForest s roots).allowed l.length i) :
    walkTable s g i = leadsTo s g i :=
  EitanOS.walkTable_eq fun f e =>
    h p (i :: l) f (.slot hg (Nat.lt_succ_of_lt hl) hi e) (List.cons_ne_nil i l) hl

theorem LowTables.lowWalk (h : LowTables s roots) (hp : p ∈ roots) {virt : ℕ} (hv : virt < 2 ^ 47) :
    LowWalk s p virt := by
  have hi {n level : ℕ} (hn : n ≠ 0) : (userForest s roots).allowed n (tableIndex level virt) :=
    ⟨tableIndex_lt _ _, fun e => absurd e hn⟩
  intro pdpt e₄
  have hpdpt : (userForest s roots).Node p [tableIndex 4 virt] pdpt :=
    .slot (.root hp) (by simp [userForest]) ⟨tableIndex_lt _ _, fun _ => tableIndex_four_lt hv⟩ e₄
  refine ⟨h _ _ _ hpdpt (by simp) (by simp), fun pd e₃ => ?_⟩
  have hpd : (userForest s roots).Node p [tableIndex 3 virt, tableIndex 4 virt] pd :=
    .slot hpdpt (by simp [userForest]) (hi (by simp)) e₃
  refine ⟨h _ _ _ hpd (by simp) (by simp), fun pt e₂ => ?_⟩
  exact h _ _ _ (.slot hpd (by simp [userForest]) (hi (by simp)) e₂) (by simp) (by simp)

theorem LowTables.pageTable_eq (h : LowTables s roots) (hc : s.current ∈ roots) {virt : ℕ}
    (hv : virt < 2 ^ 47) : pageTable s virt = tableOf s s.current virt := (h.lowWalk hc hv).pageTable_eq

theorem node_of_empty (he : ∀ i < 256, (s.frames k i).present = false)
    (hn : (userForest s {k}).Node p l f) : p = k ∧ l = [] ∧ f = k := by
  induction hn with
  | root hp =>
    cases hp
    exact ⟨rfl, rfl, rfl⟩
  | slot _ _ hi e ih =>
    obtain ⟨rfl, rfl, rfl⟩ := ih
    have : leadsTo s _ _ = none := if_neg (by rw [he _ (hi.2 rfl)]; decide)
    cases this.symm.trans e

/-! ## Frames that no one reaches -/

namespace VmmOk

theorem set (h : VmmOk s₀ k roots s) (hp : p ∈ roots) : VmmOk s₀ k roots (vmmSetPML4 s p) :=
  ⟨h.kernel, hp, h.separate, h.used, h.kernelUsed, h.apart, h.tables, h.upper, h.low⟩

theorem walkTable_eq (h : VmmOk s₀ k roots s) (hg : (userForest s roots).Node p l g)
    (hi : (userForest s roots).allowed l.length i) (hl : l.length < 4) :
    walkTable s g i = leadsTo s g i :=
  EitanOS.walkTable_eq fun f e => h.low p (i :: l) f (.slot hg hl hi e) (List.cons_ne_nil i l)

theorem pageTable_node (h : VmmOk s₀ k roots s) {virt pt : ℕ} (hv : virt < 2 ^ 47)
    (e : pageTable s virt = some pt) :
    (userForest s roots).Node s.current [tableIndex 2 virt, tableIndex 3 virt, tableIndex 4 virt]
      pt := by
  rw [LowTables.pageTable_eq (fun p l f hn hl _ => h.low p l f hn hl) h.current hv] at e
  exact tableOf_node h.current hv e

theorem setFrame (h : VmmOk s₀ k roots s) {used : Bool}
    (hn : used = false → (userForest s roots).Fresh n ∧ ¬ IsTable s₀ {k} n) :
    VmmOk s₀ k roots { s with pmm := pmmSetFrame s.pmm n used } := by
  have hkeep : ∀ f, (used = false → f ≠ n) → pmmGetFrame s.pmm f = true →
      pmmGetFrame (pmmSetFrame s.pmm n used) f = true := by
    intro f hf hu
    rw [getFrame_setFrame]
    cases used with
    | true => simp [hu]
    | false => rw [if_neg (hf rfl), hu]
  refine ⟨h.kernel, h.current, h.separate, fun p l f hf => ?_, fun f hf => ?_, h.apart, h.tables,
    h.upper, h.low⟩
  · exact hkeep f (fun hu e => (hn hu).1 p l (e ▸ hf)) (h.used p l f hf)
  · exact hkeep f (fun hu e => (hn hu).2 (e ▸ hf)) (h.kernelUsed f hf)

theorem fresh_of_free (h : VmmOk s₀ k roots s) (hn : pmmGetFrame s.pmm n = false) :
    (userForest s roots).Fresh n ∧ ¬ IsTable s₀ {k} n := by
  refine ⟨fun p l hf => ?_, fun hf => ?_⟩
  · rw [h.used p l n hf] at hn
    cases hn
  · rw [h.kernelUsed n hf] at hn
    cases hn

theorem held_zeroFrame {n' : ℕ} (hn : Held s₀ k roots s n) (hn' : Held s₀ k roots s n') :
    Held s₀ k roots (s.zeroFrame n) n' :=
  ⟨hn'.low, hn'.used, fun p l hf => hn'.fresh p l ((zeroFrame_node hn.fresh).1 hf), hn'.apart⟩

theorem zeroFrame (h : VmmOk s₀ k roots s) (hn : Held s₀ k roots s n) :
    VmmOk s₀ k roots (s.zeroFrame n) := by
  have hsame : ∀ g i, g ≠ n → (s.zeroFrame n).frames g i = s.frames g i := fun g i hg => by
    rw [frames_zeroFrame, if_neg hg]
  refine ⟨h.kernel, h.current, h.separate.congr fun p l f => (zeroFrame_node hn.fresh).1,
    fun p l f hf => ?_, h.kernelUsed, fun p l f hf => ?_, fun f hf hk => ?_, fun p hp i h₁ h₂ => ?_,
    fun p l f hf => h.low p l f ((zeroFrame_node hn.fresh).1 hf)⟩
  · exact h.used p l f ((zeroFrame_node hn.fresh).1 hf)
  · exact h.apart p l f ((zeroFrame_node hn.fresh).1 hf)
  · funext i
    rw [hsame f i fun e => hn.apart (e ▸ hf), h.tables f hf hk]
  · have hpn : p ≠ n := fun e => hn.fresh p [] (e ▸ .root hp)
    rw [hsame p i hpn, h.upper p hp i h₁ h₂]

/-! ## Entries of tables that are reached -/

theorem setEntry_frame (h : VmmOk s₀ k roots s) (hg : (userForest s roots).Node p l g)
    (hi : (userForest s roots).allowed l.length i) (e : PageEntry) :
    (∀ f, IsTable s₀ {k} f → f ≠ k → (s.setEntry g i e).frames f = s₀.frames f) ∧
      ∀ p' ∈ roots, ∀ j, 256 ≤ j → j < 512 → (s.setEntry g i e).frames p' j = s₀.frames k j := by
  refine ⟨fun f hf hk => ?_, fun p' hp' j h₁ h₂ => ?_⟩
  · funext j
    have hfg : ¬ (f = g ∧ j = i) := by
      rintro ⟨rfl, -⟩
      exact hk (h.apart p l f hg hf)
    rw [frames_setEntry, if_neg hfg, h.tables f hf hk]
  · have hpg : ¬ (p' = g ∧ j = i) := by
      rintro ⟨rfl, rfl⟩
      -- `g` is a root, where the entry is in the lower half
      obtain ⟨rfl, rfl⟩ := h.separate _ _ _ _ _ hg (.root hp')
      have := hi.2 rfl
      omega
    rw [frames_setEntry, if_neg hpg, h.upper p' hp' j h₁ h₂]

/-- **Linking a frame** that was held. Below the top three levels its entries do not count. -/
theorem link (h : VmmOk s₀ k roots s) (hg : (userForest s roots).Node p l g) (hl : l.length < 4)
    (hi : (userForest s roots).allowed l.length i) (he : leadsTo s g i = none)
    (hn : Held s₀ k roots s n) (hz : l.length < 3 → ∀ j, leadsTo s n j = none)
    (ht : e.target = some n) :
    VmmOk s₀ k roots (s.setEntry g i e) ∧
      ∀ p' l' f, (userForest (s.setEntry g i e) roots).Node p' l' f ↔
        (userForest s roots).Node p' l' f ∨ p' = p ∧ l' = i :: l ∧ f = n := by
  have hlink := links_setEntry hg hl hi he hn.fresh hz ht
  have hiff {p' l' f} : (userForest (s.setEntry g i e) roots).Node p' l' f ↔
      (userForest s roots).Node p' l' f ∨ p' = p ∧ l' = i :: l ∧ f = n :=
    node_link hlink h.separate
  obtain ⟨htables, hupper⟩ := h.setEntry_frame hg hi e
  refine ⟨⟨h.kernel, h.current, hlink.separate h.separate, fun p' l' f hf => ?_, h.kernelUsed,
    fun p' l' f hf hk => ?_, htables, hupper, fun p' l' f hf hl' => ?_⟩, fun p' l' f => hiff⟩
  · rcases hiff.1 hf with hf | ⟨-, -, rfl⟩
    · exact h.used p' l' f hf
    · exact hn.used
  · rcases hiff.1 hf with hf | ⟨-, -, rfl⟩
    · exact h.apart p' l' f hf hk
    · exact absurd hk hn.apart
  · rcases hiff.1 hf with hf | ⟨-, -, rfl⟩
    · exact h.low p' l' f hf hl'
    · exact hn.low

/-- **Unlinking a page**: its frame is held then. -/
theorem unlink (h : VmmOk s₀ k roots s) (hg : (userForest s roots).Node p l g)
    (hl : l.length = 3) (hi : (userForest s roots).allowed l.length i)
    (hf : leadsTo s g i = some f) (ht : e.target = none) :
    VmmOk s₀ k roots (s.setEntry g i e) ∧ Held s₀ k roots (s.setEntry g i e) f := by
  have hunlink := unlinks_setEntry (i := i) hg hl ht
  have hlt : l.length < 4 := by omega
  have hnode : (userForest s roots).Node p (i :: l) f := .slot hg hlt hi hf
  have hiff {p' l' f'} : (userForest (s.setEntry g i e) roots).Node p' l' f' ↔
      (userForest s roots).Node p' l' f' ∧ ¬ (p' = p ∧ l' = i :: l) :=
    node_unlink hunlink h.separate
  obtain ⟨htables, hupper⟩ := h.setEntry_frame hg hi e
  refine ⟨⟨h.kernel, h.current, hunlink.separate h.separate, fun p' l' f' hf' => ?_, h.kernelUsed,
    fun p' l' f' hf' => ?_, htables, hupper, fun p' l' f' hf' => h.low p' l' f' (hiff.1 hf').1⟩,
    h.low _ _ _ hnode (List.cons_ne_nil i l), h.used _ _ _ hnode, fun p' l' hf' => ?_, fun hk => ?_⟩
  · exact h.used p' l' f' (hiff.1 hf').1
  · exact h.apart p' l' f' (hiff.1 hf').1
  · obtain ⟨hf', hne⟩ := hiff.1 hf'
    exact hne (h.separate _ _ _ _ _ hf' hnode)
  · -- a page of the user half is below a root, and the kernel PML4 is one
    cases h.apart _ _ _ hnode hk
    have := (h.separate _ _ _ _ _ hnode (.root h.kernel)).2
    cases this

/-- **Changing an entry but not where it leads.** -/
theorem relabel (h : VmmOk s₀ k roots s) (hg : (userForest s roots).Node p l g)
    (hi : (userForest s roots).allowed l.length i) (ht : e.target = leadsTo s g i) :
    VmmOk s₀ k roots (s.setEntry g i e) := by
  have heq : userForest (s.setEntry g i e) roots = userForest s roots := userForest_relabel ht
  obtain ⟨htables, hupper⟩ := h.setEntry_frame hg hi e
  refine ⟨h.kernel, h.current, ?_, ?_, h.kernelUsed, ?_, htables, hupper, ?_⟩
  · rw [heq]
    exact h.separate
  · rw [heq]
    exact h.used
  · rw [heq]
    exact h.apart
  · rw [heq]
    exact h.low

/-- **A new address space**: a frame that was held becomes a PML4 with the upper half of the
kernel's. -/
theorem addRoot (h : VmmOk s₀ k roots s) (hn : Held s₀ k roots s n) :
    VmmOk s₀ k (insert n roots) (vmmCopyKernelPML4 (s.zeroFrame n) n k) := by
  have hz := h.zeroFrame hn
  have hnz := held_zeroFrame hn hn
  have hnk : k ≠ n := fun e => hn.apart (e ▸ isTable_root)
  have hsame : ∀ g j, g ≠ n →
      (vmmCopyKernelPML4 (s.zeroFrame n) n k).frames g j = (s.zeroFrame n).frames g j :=
    fun g j hg => by rw [frames_copyKernelPML4, if_neg fun h => hg h.1]
  have hagree : Agree (userForest (s.zeroFrame n) roots)
      (userForest (vmmCopyKernelPML4 (s.zeroFrame n) n k) roots) fun g _ => g ≠ n := by
    refine ⟨rfl, rfl, rfl, fun g j hg => ?_⟩
    show ((vmmCopyKernelPML4 (s.zeroFrame n) n k).frames g j).target = _
    rw [hsame g j hg]
    rfl
  have hiff {p l f} : (userForest (vmmCopyKernelPML4 (s.zeroFrame n) n k) roots).Node p l f ↔
      (userForest (s.zeroFrame n) roots).Node p l f :=
    Node.iff_of_agree hagree fun p l g _ hg _ _ e => hnz.fresh p l (e ▸ hg)
  have hadd : AddsRoot (userForest (vmmCopyKernelPML4 (s.zeroFrame n) n k) roots)
      (userForest (vmmCopyKernelPML4 (s.zeroFrame n) n k) (insert n roots)) n := by
    refine ⟨rfl, rfl, rfl, rfl, fun p l hf => hnz.fresh p l (hiff.1 hf), fun j hj => ?_⟩
    have hj' := hj.2 rfl
    show ((vmmCopyKernelPML4 (s.zeroFrame n) n k).frames n j).target = none
    rw [frames_copyKernelPML4, if_neg (by omega), frames_zeroFrame, if_pos rfl]
    rfl
  have hnode {p l f} : (userForest (vmmCopyKernelPML4 (s.zeroFrame n) n k) (insert n roots)).Node p l f ↔
      (userForest (s.zeroFrame n) roots).Node p l f ∨ p = n ∧ l = [] ∧ f = n := by
    rw [node_addRoot hadd, hiff]
  refine ⟨.inr h.kernel, .inr h.current, hadd.separate (hz.separate.congr fun p l f => hiff.1),
    fun p l f hf => ?_, h.kernelUsed, fun p l f hf hk => ?_, fun f hf hk => ?_,
    fun p hp j h₁ h₂ => ?_, fun p l f hf hl => ?_⟩
  · rcases hnode.1 hf with hf | ⟨-, -, rfl⟩
    · exact hz.used p l f hf
    · exact hn.used
  · rcases hnode.1 hf with hf | ⟨-, -, rfl⟩
    · exact hz.apart p l f hf hk
    · exact absurd hk hn.apart
  · funext j
    rw [hsame f j fun e => hn.apart (e ▸ hf), hz.tables f hf hk]
  · rcases hp with rfl | hp
    · rw [frames_copyKernelPML4, if_pos ⟨rfl, h₁, h₂⟩]
      exact hz.upper k h.kernel j h₁ h₂
    · have hpn : p ≠ n := fun e => hn.fresh p [] (e ▸ .root hp)
      rw [hsame p j hpn]
      exact hz.upper p hp j h₁ h₂
  · rcases hnode.1 hf with hf | ⟨-, e, -⟩
    · exact hz.low p l f hf hl
    · exact absurd e hl

/-! ## The functions of the code -/

/-- **`pmm_alloc_frame`** returns a frame that is held from then on; frames held before stay so. -/
theorem alloc (h : VmmOk s₀ k roots s) (ho : (pmmAllocFrame s.pmm).2.outOfLowFrames = false) :
    VmmOk s₀ k roots { s with pmm := (pmmAllocFrame s.pmm).2 } ∧
      Held s₀ k roots { s with pmm := (pmmAllocFrame s.pmm).2 } (pmmAllocFrame s.pmm).1 ∧
      ∀ n, Held s₀ k roots s n → n ≠ (pmmAllocFrame s.pmm).1 ∧
        Held s₀ k roots { s with pmm := (pmmAllocFrame s.pmm).2 } n := by
  obtain ⟨-, -, hlow, hfree, heq⟩ := pmmAllocFrame_spec ho
  obtain ⟨hfresh, hapart⟩ := h.fresh_of_free hfree
  rw [heq]
  refine ⟨h.setFrame (fun hu => absurd hu (by decide)), ⟨hlow, ?_, hfresh, hapart⟩,
    fun n hn => ⟨?_, hn.low, ?_, hn.fresh, hn.apart⟩⟩
  · show pmmGetFrame (pmmSetFrame s.pmm _ true) _ = true
    rw [getFrame_setFrame, if_pos rfl]
  · intro e
    rw [← e, hn.used] at hfree
    cases hfree
  · show pmmGetFrame (pmmSetFrame s.pmm _ true) n = true
    rw [getFrame_setFrame, hn.used, ite_self]

theorem held_link {n' : ℕ} (hn' : Held s₀ k roots s n') (hne : n' ≠ n)
    (hiff : ∀ p' l' f, (userForest s' roots).Node p' l' f ↔
      (userForest s roots).Node p' l' f ∨ p' = p ∧ l' = i :: l ∧ f = n)
    (hp : s'.pmm = s.pmm) : Held s₀ k roots s' n' := by
  refine ⟨hn'.low, hp ▸ hn'.used, fun p' l' hf => ?_, hn'.apart⟩
  rcases (hiff p' l' n').1 hf with hf | ⟨-, -, e⟩
  · exact hn'.fresh p' l' hf
  · exact hne e

/-- **One level of `vmm_map_page`** leads one level down and keeps the invariant. -/
theorem nextTable (h : VmmOk s₀ k roots s) (hg : (userForest s roots).Node p l g)
    (hl : l.length < 3) (hi : (userForest s roots).allowed l.length i)
    (ho : (nextTable s g i).2.pmm.outOfLowFrames = false) :
    VmmOk s₀ k roots (EitanOS.nextTable s g i).2 ∧
      (∀ f, (EitanOS.nextTable s g i).1 = some f →
        (userForest (EitanOS.nextTable s g i).2 roots).Node p (i :: l) f) ∧
      ∀ n, Held s₀ k roots s n → Held s₀ k roots (EitanOS.nextTable s g i).2 n := by
  unfold EitanOS.nextTable at ho ⊢
  dsimp only at ho ⊢
  have hl' : l.length < 4 := by omega
  by_cases hp : (s.frames g i).present
  · rw [if_pos hp] at ho ⊢
    refine ⟨h, fun f hf => ?_, fun n hn => hn⟩
    exact .slot hg hl' hi ((h.walkTable_eq hg hi hl').symm.trans ((if_pos hp).trans hf))
  · rw [if_neg hp] at ho ⊢
    have ho' : (pmmAllocFrame s.pmm).2.outOfLowFrames = false := by
      split_ifs at ho
      · exact ho
      · exact ho
    obtain ⟨h₁, hn, hheld⟩ := h.alloc ho'
    split_ifs with hz
    · exact ⟨h₁, fun f hf => hf.elim, fun n' hn' => (hheld n' hn').2⟩
    · generalize ht : ({ s with pmm := (pmmAllocFrame s.pmm).2 } : Vmm) = s₁ at h₁ hn hheld ⊢
      have hfr : s₁.frames = s.frames := by rw [← ht]
      have hgn : g ≠ (pmmAllocFrame s.pmm).1 := fun e => hn.fresh p l (e ▸ ht ▸ hg)
      have hg₂ : (userForest (s₁.zeroFrame (pmmAllocFrame s.pmm).1) roots).Node p l g :=
        (zeroFrame_node hn.fresh).2 (ht ▸ hg)
      have hempty : leadsTo (s₁.zeroFrame (pmmAllocFrame s.pmm).1) g i = none := by
        unfold leadsTo
        rw [frames_zeroFrame, if_neg hgn, hfr]
        exact if_neg hp
      have hslots : ∀ j, leadsTo (s₁.zeroFrame (pmmAllocFrame s.pmm).1) (pmmAllocFrame s.pmm).1 j =
          none := by
        intro j
        unfold leadsTo
        rw [frames_zeroFrame, if_pos rfl]
        rfl
      obtain ⟨h₃, hiff⟩ := (h₁.zeroFrame hn).link hg₂ hl' hi hempty (held_zeroFrame hn hn)
        (fun _ => hslots)
        (target_make (by decide : vmmFlagsTable.testBit 0 = true) (pmmAllocFrame_lt s.pmm))
      refine ⟨h₃, fun f hf => ?_, fun n' hn' => ?_⟩
      · cases hf
        exact (hiff _ _ _).2 (.inr ⟨rfl, rfl, rfl⟩)
      · obtain ⟨hne, hn₁⟩ := hheld n' hn'
        exact held_link (held_zeroFrame hn hn₁) hne hiff rfl

/-- What mapping a frame that is held leaves behind. -/
structure Maps (s₀ : Vmm) (k : ℕ) (roots : Set ℕ) (n : ℕ) (r : Bool × Vmm) : Prop where
  ok : VmmOk s₀ k roots r.2
  held : r.1 = false → Held s₀ k roots r.2 n

theorem mapEntry (h : VmmOk s₀ k roots s) (hg : (userForest s roots).Node p l g)
    (hl : l.length = 3) {virt flags : ℕ} (hn : Held s₀ k roots s n)
    (hf : flags.testBit 0 = true) : Maps s₀ k roots n (mapEntry s g virt (n * 4096) flags) := by
  have hi : (userForest s roots).allowed l.length (tableIndex 1 virt) :=
    ⟨tableIndex_lt _ _, fun e => absurd e (by omega)⟩
  unfold EitanOS.mapEntry
  rw [Nat.mul_div_cancel _ (by decide)]
  by_cases hp : (s.frames g (tableIndex 1 virt)).present
  · rw [if_pos hp]
    exact ⟨h, fun _ => hn⟩
  · have hres : reserveUnlessReserved s.pmm n = (true, s.pmm) := if_pos hn.used
    rw [if_neg hp, hres]
    dsimp only
    rw [if_pos rfl]
    have hl' : l.length < 4 := by omega
    exact ⟨(h.link hg hl' hi (if_neg hp) hn (fun hl₃ => absurd hl₃ (by omega))
      (target_make hf (hn.low.trans (by decide)))).1, fun hb => Bool.noConfusion hb⟩

theorem withTable (h : VmmOk s₀ k roots s) (hg : (userForest s roots).Node p l g)
    (hl : l.length < 3) (hi : (userForest s roots).allowed l.length i)
    (hn : Held s₀ k roots s n) {next : ℕ → Vmm → Bool × Vmm}
    (hout : KeepsOut next)
    (hnext : ∀ t s', VmmOk s₀ k roots s' → (userForest s' roots).Node p (i :: l) t →
      Held s₀ k roots s' n → (next t s').2.pmm.outOfLowFrames = false → Maps s₀ k roots n (next t s'))
    (ho : (withTable (EitanOS.nextTable s g i) next).2.pmm.outOfLowFrames = false) :
    Maps s₀ k roots n (EitanOS.withTable (EitanOS.nextTable s g i) next) := by
  obtain ⟨h₁, hnode, hheld⟩ := h.nextTable hg hl hi (withTable_outOfLowFrames hout ho)
  rcases e : EitanOS.nextTable s g i with ⟨_ | t, s'⟩
  · rw [e] at h₁ hheld
    exact ⟨h₁, fun _ => hheld n hn⟩
  · rw [e] at h₁ hnode hheld ho
    exact hnext t s' h₁ (hnode t rfl) (hheld n hn) ho

/-- **`vmm_map_page`**, for a frame that is held. -/
theorem vmmMapPage (h : VmmOk s₀ k roots s) {virt flags : ℕ} (hv : virt < 2 ^ 47)
    (hn : Held s₀ k roots s n) (hf : flags.testBit 0 = true)
    (ho : (vmmMapPage s virt (n * 4096) flags).2.pmm.outOfLowFrames = false) :
    Maps s₀ k roots n (EitanOS.vmmMapPage s virt (n * 4096) flags) := by
  have out₃ := keepsOut_mapEntry virt (n * 4096) flags
  have out₂ := keepsOut_withTable out₃ (tableIndex 2 virt)
  have out₁ := keepsOut_withTable out₂ (tableIndex 3 virt)
  refine h.withTable (.root h.current) (by simp)
    ⟨tableIndex_lt _ _, fun _ => tableIndex_four_lt hv⟩ hn out₁ (fun pdpt s₁ h₁ hg₁ hn₁ ho₁ => ?_) ho
  refine h₁.withTable hg₁ (by simp) ⟨tableIndex_lt _ _, fun e => by simp at e⟩ hn₁ out₂
    (fun pd s₂ h₂ hg₂ hn₂ ho₂ => ?_) ho₁
  exact h₂.withTable hg₂ (by simp) ⟨tableIndex_lt _ _, fun e => by simp at e⟩ hn₂ out₃
    (fun pt s₃ h₃ hg₃ hn₃ _ => h₃.mapEntry hg₃ rfl hn₃ hf) ho₂

/-- **`vmm_unmap_page`** on an address of the user half. -/
theorem vmmUnmapPage (h : VmmOk s₀ k roots s) {virt : ℕ} (hv : virt < 2 ^ 47) :
    VmmOk s₀ k roots (vmmUnmapPage s virt).2 := by
  unfold EitanOS.vmmUnmapPage
  cases e : pageTable s virt with
  | none => exact h
  | some pt =>
    have hg := h.pageTable_node hv e
    have hi : (userForest s roots).allowed 3 (tableIndex 1 virt) :=
      ⟨tableIndex_lt 1 virt, fun e => by simp at e⟩
    dsimp only
    split_ifs with hp
    · have hlead : leadsTo s pt (tableIndex 1 virt) = some (s.frames pt (tableIndex 1 virt)).frame :=
        (h.walkTable_eq hg hi (by simp)).symm.trans (if_pos hp)
      obtain ⟨h₁, hheld⟩ := h.unlink hg rfl hi hlead
        (e := { s.frames pt (tableIndex 1 virt) with present := false }) rfl
      -- the frame is marked as used, so it is freed
      have hfree : freeIfReserved s.pmm (s.frames pt (tableIndex 1 virt)).frame =
          pmmSetFrame s.pmm (s.frames pt (tableIndex 1 virt)).frame false :=
        if_pos hheld.used
      rw [setEntry_pmm, hfree]
      exact h₁.setFrame fun _ => ⟨hheld.fresh, hheld.apart⟩
    · exact h

/-- **`vmm_edit_page`** as `vmm_edit_pages` calls it. -/
theorem vmmEditPage (h : VmmOk s₀ k roots s) {virt flags : ℕ} (hv : virt < 2 ^ 47)
    (hf : flags.testBit 0 = true) : VmmOk s₀ k roots (vmmEditPage s virt 0 flags).2 := by
  unfold EitanOS.vmmEditPage
  cases e : pageTable s virt with
  | none => exact h
  | some pt =>
    have hg := h.pageTable_node hv e
    have hi : (userForest s roots).allowed 3 (tableIndex 1 virt) :=
      ⟨tableIndex_lt 1 virt, fun e => by simp at e⟩
    have hne : flags ≠ 0 := by
      rintro rfl
      cases hf
    dsimp only
    by_cases hp : (s.frames pt (tableIndex 1 virt)).present
    · rw [if_pos hp, if_pos hne, if_neg (not_not.2 rfl)]
      refine h.relabel hg hi ?_
      rw [target_make hf ((frame_lt _).trans (by decide)), ← h.walkTable_eq hg hi (by simp)]
      exact (if_pos hp).symm
    · rw [if_neg hp]
      exact h

theorem unmapLoop (h : VmmOk s₀ k roots s) {startVirt endVirt n i : ℕ}
    (hr : UserRange startVirt endVirt) (hn : i + n ≤ pageAmount startVirt endVirt) :
    VmmOk s₀ k roots (unmapLoop s startVirt n i) := by
  induction n generalizing s i with
  | zero => exact h
  | succ n ih => exact ih (h.vmmUnmapPage (hr.pageAt_lt (by omega))) (by omega)

theorem editLoop (h : VmmOk s₀ k roots s) {startVirt endVirt flags n i : ℕ}
    (hr : UserRange startVirt endVirt) (hf : flags.testBit 0 = true)
    (hn : i + n ≤ pageAmount startVirt endVirt) (success : Bool) :
    VmmOk s₀ k roots (editLoop s startVirt flags n i success).2 := by
  induction n generalizing s i success with
  | zero => exact h
  | succ n ih => exact ih (h.vmmEditPage (hr.pageAt_lt (by omega)) hf) (by omega) _

theorem allocLoop (h : VmmOk s₀ k roots s) {startVirt endVirt flags n i : ℕ}
    (hr : UserRange startVirt endVirt) (hf : flags.testBit 0 = true)
    (hn : i + n ≤ pageAmount startVirt endVirt)
    (ho : (allocLoop s startVirt flags n i).2.pmm.outOfLowFrames = false) :
    VmmOk s₀ k roots (EitanOS.allocLoop s startVirt flags n i).2 ∧
      ∀ failed, (EitanOS.allocLoop s startVirt flags n i).1 = some failed → failed < i + n := by
  induction n generalizing s i with
  | zero => exact ⟨h, fun failed e => by cases e⟩
  | succ n ih =>
    have hv := hr.pageAt_lt (i := i) (by omega)
    unfold EitanOS.allocLoop at ho ⊢
    dsimp only at ho ⊢
    split_ifs at ho ⊢ with h₀ hs
    · refine ⟨(h.alloc ho).1, fun failed e => ?_⟩
      cases e
      omega
    · have ho' := EitanOS.allocLoop_outOfLowFrames ho
      obtain ⟨h₁, hheld, -⟩ := h.alloc (vmmMapPage_outOfLowFrames ho')
      obtain ⟨h₂, hfail⟩ := ih (h₁.vmmMapPage hv hheld hf ho').ok (by omega) ho
      exact ⟨h₂, fun failed e => by have := hfail failed e; omega⟩
    · obtain ⟨h₁, hheld, -⟩ := h.alloc (vmmMapPage_outOfLowFrames ho)
      have hmaps := h₁.vmmMapPage hv hheld hf ho
      have hheld' := hmaps.held (Bool.eq_false_iff.2 hs)
      refine ⟨hmaps.ok.setFrame fun _ => ⟨hheld'.fresh, hheld'.apart⟩, fun failed e => ?_⟩
      cases e
      omega

/-- **`vmm_alloc`** on pages of the user half, with its rollback. -/
theorem allocPages (h : VmmOk s₀ k roots s) {startVirt endVirt flags amount : ℕ}
    (hr : UserRange startVirt endVirt) (hf : flags.testBit 0 = true)
    (ha : amount ≤ pageAmount startVirt endVirt)
    (ho : (allocPages s startVirt flags amount).2.pmm.outOfLowFrames = false) :
    VmmOk s₀ k roots (EitanOS.allocPages s startVirt flags amount).2 := by
  unfold EitanOS.allocPages at ho ⊢
  have hloop := h.allocLoop hr hf ((Nat.zero_add amount).le.trans ha)
  generalize EitanOS.allocLoop s startVirt flags amount 0 = x at ho hloop ⊢
  obtain ⟨_ | failed, s'⟩ := x
  · exact (hloop ho).1
  · dsimp only at ho ⊢ hloop
    rw [unmapLoop_outOfLowFrames] at ho
    obtain ⟨h', hfail⟩ := hloop ho
    have hlt := hfail failed rfl
    exact h'.unmapLoop hr (by omega)

theorem leadsTo_of_table (e : (tableForest s roots).link g i = some f) :
    leadsTo s g i = some f := by
  unfold tableForest at e
  dsimp only at e
  split_ifs at e with hp
  exact (if_pos hp.1).trans e

theorem table_cases_root (h : VmmOk s₀ k roots s) (hp : p ∈ roots) (hi : i < 512)
    (e : (tableForest s roots).link p i = some f) :
    (userForest s roots).Node p [i] f ∨ (tableForest s₀ {k}).Node k [i] f := by
  by_cases hu : i < 256
  · exact .inl (.slot (.root hp) (by simp [userForest]) ⟨hi, fun _ => hu⟩ (leadsTo_of_table e))
  · refine .inr (.slot (.root rfl) (by simp [tableForest]) hi ?_)
    have hup := h.upper p hp i (by omega) hi
    unfold tableForest at e ⊢
    dsimp only at e ⊢
    rw [← hup]
    exact e

/-- **A frame that serves as a page table** is one of the user halves or of the kernel at the start,
no further down than it is found. -/
theorem table_cases (h : VmmOk s₀ k roots s) (hf : (tableForest s roots).Node p l f) :
    (∃ p' l', l'.length ≤ l.length ∧ (userForest s roots).Node p' l' f) ∨
      ∃ l', l'.length ≤ l.length ∧ (tableForest s₀ {k}).Node k l' f := by
  induction hf with
  | root hp => exact .inl ⟨p, [], le_rfl, .root hp⟩
  | @slot l g i f _ hl hi e ih =>
    have hl : l.length < 3 := hl
    have hroot : g ∈ roots → (∃ p' l', l'.length ≤ l.length + 1 ∧ (userForest s roots).Node p' l' f) ∨
        ∃ l', l'.length ≤ l.length + 1 ∧ (tableForest s₀ {k}).Node k l' f := by
      intro hg
      rcases h.table_cases_root hg hi e with hn | hn
      · exact .inl ⟨g, [i], by simp, hn⟩
      · exact .inr ⟨[i], by simp, hn⟩
    rcases ih with ⟨p', l', hle, hn⟩ | ⟨l', hle, hn⟩
    · by_cases hl' : l' = []
      · subst hl'
        cases hn with
        | root hp => exact hroot hp
      · refine .inl ⟨p', i :: l', Nat.succ_le_succ hle, .slot hn ?_ ⟨hi, fun h₀ => ?_⟩
          (leadsTo_of_table e)⟩
        · show l'.length < 4
          omega
        · exact absurd (List.length_eq_zero_iff.1 h₀) hl'
    · by_cases hg : g = k
      · exact hroot (hg ▸ h.kernel)
      · refine .inr ⟨i :: l', Nat.succ_le_succ hle, .slot hn ?_ hi ?_⟩
        · show l'.length < 3
          omega
        · have htables := h.tables g ⟨k, l', hn⟩ hg
          unfold tableForest at e ⊢
          dsimp only at e ⊢
          rw [← htables]
          exact e

/-- **No page is a page table.** -/
theorem not_isTable (h : VmmOk s₀ k roots s) (hf : (userForest s roots).Node p l f)
    (hl : l.length = 4) : ¬ IsTable s roots f := by
  rintro ⟨p₁, l₁, hn⟩
  have hl₁ : l₁.length ≤ 3 := hn.length_le
  rcases h.table_cases hn with ⟨p', l', hle, hn'⟩ | ⟨l', -, hn'⟩
  · obtain ⟨-, rfl⟩ := h.separate _ _ _ _ _ hf hn'
    omega
  · have hk := h.apart p l f hf ⟨k, l', hn'⟩
    subst hk
    obtain ⟨-, rfl⟩ := h.separate _ _ _ _ _ hf (.root h.kernel)
    cases hl

end VmmOk

/-! ## Runs -/

/-- One operation on the address spaces, from the PML4s there are and the state to those after it. -/
inductive VmmStep (k : ℕ) : Set ℕ → Vmm → Set ℕ → Vmm → Prop
  | create {rs : Set ℕ} {v v' : Vmm} {pml4 : ℕ} (e : vmmCreatePML4 v = (some pml4, v')) :
      VmmStep k rs v (insert pml4 rs) (vmmCopyKernelPML4 v' pml4 k)
  | createFails {rs : Set ℕ} {v v' : Vmm} (e : vmmCreatePML4 v = (none, v')) : VmmStep k rs v rs v'
  | set {rs : Set ℕ} {v : Vmm} {pml4 : ℕ} (h : pml4 ∈ rs) : VmmStep k rs v rs (vmmSetPML4 v pml4)
  | alloc {rs : Set ℕ} {v : Vmm} {startVirt endVirt flags : ℕ} (hr : UserRange startVirt endVirt)
      (hf : flags.testBit 0 = true) : VmmStep k rs v rs (vmmAlloc v startVirt endVirt flags).2
  | free {rs : Set ℕ} {v : Vmm} {startVirt endVirt : ℕ} (hr : UserRange startVirt endVirt) :
      VmmStep k rs v rs (vmmFree v startVirt endVirt)
  | edit {rs : Set ℕ} {v : Vmm} {startVirt endVirt flags : ℕ} (hr : UserRange startVirt endVirt)
      (hf : flags.testBit 0 = true) : VmmStep k rs v rs (vmmEditPages v startVirt endVirt flags).2

/-- The address spaces and states after runs from the kernel PML4 `k` alone, in state `s₀`. -/
inductive VmmReach (s₀ : Vmm) (k : ℕ) : Set ℕ → Vmm → Prop
  | start : VmmReach s₀ k {k} s₀
  | step {rs rs' : Set ℕ} {v v' : Vmm} (hr : VmmReach s₀ k rs v) (hs : VmmStep k rs v rs' v') :
      VmmReach s₀ k rs' v'

theorem allocPages_outOfLowFrames {startVirt flags amount : ℕ}
    (h : (allocPages s startVirt flags amount).2.pmm.outOfLowFrames = false) :
    s.pmm.outOfLowFrames = false := by
  unfold allocPages at h
  rcases e : allocLoop s startVirt flags amount 0 with ⟨_ | failed, s'⟩
  · rw [e] at h
    exact allocLoop_outOfLowFrames (by rw [e]; exact h)
  · rw [e] at h
    dsimp only at h
    rw [unmapLoop_outOfLowFrames] at h
    exact allocLoop_outOfLowFrames (by rw [e]; exact h)

theorem vmmCreatePML4_pmm : (vmmCreatePML4 s).2.pmm = (pmmAllocFrame s.pmm).2 := by
  unfold vmmCreatePML4
  dsimp only
  split_ifs
  · rfl
  · rfl

theorem VmmStep.outOfLowFrames {roots' : Set ℕ} (h : VmmStep k roots s roots' s')
    (ho : s'.pmm.outOfLowFrames = false) : s.pmm.outOfLowFrames = false := by
  cases h with
  | create e =>
    refine (pmmAllocFrame_spec ?_).1
    rw [← vmmCreatePML4_pmm, e]
    exact ho
  | createFails e =>
    refine (pmmAllocFrame_spec ?_).1
    rw [← vmmCreatePML4_pmm, e]
    exact ho
  | set => exact ho
  | alloc => exact allocPages_outOfLowFrames ho
  | free =>
    unfold vmmFree at ho
    rw [unmapLoop_outOfLowFrames] at ho
    exact ho
  | edit =>
    unfold vmmEditPages at ho
    rw [editLoop_pmm] at ho
    exact ho

/-- **Every operation keeps the invariant.** -/
theorem VmmOk.step {roots' : Set ℕ} (h : VmmOk s₀ k roots s)
    (hs : VmmStep k roots s roots' s') (ho : s'.pmm.outOfLowFrames = false) :
    VmmOk s₀ k roots' s' := by
  cases hs with
  | create e =>
    have ho' : (pmmAllocFrame s.pmm).2.outOfLowFrames = false := by
      rw [← vmmCreatePML4_pmm, e]
      exact ho
    obtain ⟨h₁, hn, -⟩ := h.alloc ho'
    unfold vmmCreatePML4 at e
    dsimp only at e
    split_ifs at e
    · cases e
    · cases e
      exact h₁.addRoot hn
  | createFails e =>
    unfold vmmCreatePML4 at e
    dsimp only at e
    split_ifs at e
    · cases e
      exact (h.alloc ho).1
    · cases e
  | set hp => exact h.set hp
  | alloc hr hf => exact h.allocPages hr hf le_rfl ho
  | free hr => exact h.unmapLoop hr (Nat.zero_add _).le
  | edit hr hf => exact h.editLoop hr hf (Nat.zero_add _).le true

theorem StartOk.vmmOk (h : StartOk s₀ k) (hc : s₀.current = k) : VmmOk s₀ k {k} s₀ := by
  have hnode {p l f} (hn : (userForest s₀ {k}).Node p l f) : p = k ∧ l = [] ∧ f = k :=
    node_of_empty h.empty hn
  refine ⟨rfl, hc, fun p l p' l' f h₁ h₂ => ?_, fun p l f hn => ?_, h.used, fun p l f hn _ => ?_,
    fun f _ _ => rfl, fun p hp i _ _ => ?_, fun p l f hn hl => absurd (hnode hn).2.1 hl⟩
  · obtain ⟨rfl, rfl, -⟩ := hnode h₁
    obtain ⟨rfl, rfl, -⟩ := hnode h₂
    exact ⟨rfl, rfl⟩
  · obtain ⟨-, -, rfl⟩ := hnode hn
    exact h.used f isTable_root
  · exact (hnode hn).2.2
  · cases hp
    rfl

theorem VmmReach.vmmOk (hr : VmmReach s₀ k roots s) (h : VmmOk s₀ k {k} s₀)
    (ho : s.pmm.outOfLowFrames = false) : VmmOk s₀ k roots s := by
  induction hr with
  | start => exact h
  | step _ hs ih => exact (ih (hs.outOfLowFrames ho)).step hs ho

/-- The indices of an address, as the slots that lead to its page. -/
def slotsOf (virt : ℕ) : List ℕ :=
  [tableIndex 1 virt, tableIndex 2 virt, tableIndex 3 virt, tableIndex 4 virt]

theorem translate_node (hp : p ∈ roots) {virt : ℕ}
    (hv : virt < 2 ^ 47) (e : translate s p virt = some f) :
    (userForest s roots).Node p (slotsOf virt) f := by
  obtain ⟨pt, e₁, e⟩ := Option.bind_eq_some_iff.1 e
  exact .slot (tableOf_node hp hv e₁) (by simp [userForest])
    ⟨tableIndex_lt _ _, fun e => by simp at e⟩ e

/-- **Address spaces are exclusive.** After every run of operations, in any order and over any number
of address spaces, in which every allocation has returned a frame below `2 ^ 28`: every page table and
every page of a user half is marked as used; no page is a page table; and no page and no page table
below a PML4 is reached twice. -/
theorem run_exclusive {s₀ s : Vmm} {k : ℕ} {roots : Set ℕ} (h₀ : StartOk s₀ k)
    (hc : s₀.current = k) (hr : VmmReach s₀ k roots s)
    (ho : s.pmm.outOfLowFrames = false) :
    (∀ p l f, (userForest s roots).Node p l f → pmmGetFrame s.pmm f = true) ∧
      (∀ p ∈ roots, ∀ virt < 2 ^ 47, ∀ f, translate s p virt = some f → ¬ IsTable s roots f) ∧
      (∀ p ∈ roots, ∀ p' ∈ roots, ∀ virt < 2 ^ 47, ∀ virt' < 2 ^ 47, ∀ f,
        translate s p virt = some f → translate s p' virt' = some f →
          p = p' ∧ virt / 4096 = virt' / 4096) ∧
      ∀ p l p' l' f, (userForest s roots).Node p l f → (userForest s roots).Node p' l' f →
        p = p' ∧ l = l' := by
  have h : VmmOk s₀ k roots s := hr.vmmOk (h₀.vmmOk hc) ho
  refine ⟨h.used, fun p hp virt hv f e => ?_, fun p hp p' hp' virt hv virt' hv' f e e' => ?_,
    h.separate⟩
  · exact h.not_isTable (translate_node hp hv e) rfl
  · obtain ⟨hpp, hl⟩ := h.separate _ _ _ _ _ (translate_node hp hv e) (translate_node hp' hv' e')
    simp only [slotsOf, List.cons.injEq, and_true] at hl
    obtain ⟨e₁, e₂, e₃, e₄⟩ := hl
    exact ⟨hpp, page_eq_of_tableIndex hv hv' e₁ e₂ e₃ e₄⟩

/-- A machine with an empty kernel PML4 in frame 1; frames 0 and 1 are used. -/
def bareMachine : Vmm where
  pmm := .sixtyFour fun i => if i = 0 then 3 else 0
  frames _ _ := .ofFlags 0
  current := 1
  hhdmOffset := 0xffff800000000000

theorem StartOk.of_empty (h : ∀ g i, (s.frames g i).present = false)
    (hk : pmmGetFrame s.pmm k = true) : StartOk s k := by
  refine ⟨fun f hf => ?_, fun i _ => h k i⟩
  obtain ⟨p, l, hn⟩ := hf
  cases hn with
  | root hp =>
    cases hp
    exact hk
  | @slot _ g i _ _ _ _ e =>
    have e : (if (s.frames g i).present ∧ ¬ (s.frames g i).hugePage then _ else none) = some f := e
    rw [if_neg fun hp => by rw [h g i] at hp; cases hp.1] at e
    cases e

theorem startOk_bareMachine : StartOk bareMachine 1 := .of_empty (fun _ _ => rfl) (by decide)

/-- An address space with one page, in frame 2. -/
def oneSpace : Vmm :=
  (vmmAlloc (vmmSetPML4 (vmmCopyKernelPML4 (vmmCreatePML4 bareMachine).2 2 1) 2) 0x400000 0x400fff 7).2

theorem run_exclusive_one_space :
    VmmReach bareMachine 1 (insert 2 {1}) oneSpace ∧ oneSpace.pmm.outOfLowFrames = false ∧
      translate oneSpace 2 0x400000 = some 3 ∧ ¬ IsTable oneSpace (insert 2 {1}) 3 := by
  have hcreate : vmmCreatePML4 bareMachine = (some 2, (vmmCreatePML4 bareMachine).2) :=
    Prod.ext (by decide +kernel) rfl
  have hreach : VmmReach bareMachine 1 (insert 2 {1}) oneSpace :=
    .step (.step (.step .start (.create hcreate)) (.set (.inl rfl)))
      (.alloc ⟨by decide, by decide⟩ (by decide))
  have hout : oneSpace.pmm.outOfLowFrames = false := by decide +kernel
  have htrans : translate oneSpace 2 0x400000 = some 3 := by decide +kernel
  exact ⟨hreach, hout, htrans, (run_exclusive startOk_bareMachine rfl hreach hout).2.1 2 (.inl rfl)
    0x400000 (by decide) 3 htrans⟩

/-! ## Frames from `2 ^ 28` on -/

/-- A machine with an empty kernel PML4 in frame 1, in which frames 2 to 6 and `2 ^ 28 + 3` are free. -/
def highStart : Vmm where
  pmm := .high fun i => if i = 0 then 0x83 else if i = 0x2000000 then 0xf7 else 0xff
  frames _ _ := .ofFlags 0
  current := 1
  hhdmOffset := 0xffff800000000000

/-- Its frames after `n` allocations. -/
def highTaken : ℕ → Pmm
  | 0 => highStart.pmm
  | n + 1 => pmmSetFrame (highTaken n) (n + 2) true

theorem getFrame_highStart (f : ℕ) :
    pmmGetFrame highStart.pmm f = false ↔ 2 ≤ f ∧ f < 7 ∨ f = 0x10000003 := by
  by_cases h₀ : f / 8 = 0
  · have hf : f < 8 := by omega
    interval_cases f <;> decide
  by_cases h₁ : f / 8 = 0x2000000
  · obtain ⟨i, rfl⟩ : ∃ i, f = 0x10000000 + i := ⟨f - 0x10000000, by omega⟩
    have hi : i < 8 := by omega
    interval_cases i <;> decide +kernel
  rw [getFrame_full ((if_neg h₀).trans (if_neg h₁))]
  simp only [Bool.true_eq_false, false_iff]
  omega

theorem getFrame_highTaken (n f : ℕ) :
    pmmGetFrame (highTaken n) f = false ↔ n + 2 ≤ f ∧ f < 7 ∨ f = 0x10000003 ∧ n + 2 ≤ f := by
  induction n with
  | zero =>
    refine (getFrame_highStart f).trans ?_
    omega
  | succ n ih =>
    rw [highTaken, getFrame_setFrame]
    split_ifs with hf
    · simp only [false_iff]
      omega
    · rw [ih]
      omega

theorem highTaken_totalFrames (n : ℕ) : (highTaken n).totalFrames = 2 ^ 28 + 8 := by
  induction n with
  | zero => rfl
  | succ n ih => exact ih

theorem pmmAllocFrame_highTaken {n : ℕ} (hn : n < 5) :
    pmmAllocFrame (highTaken n) = (n + 2, highTaken (n + 1)) := by
  have hlow : n + 2 < 2 ^ 28 := by omega
  rw [pmmAllocFrame_eq (f := n + 2) (by omega) (by rw [highTaken_totalFrames]; omega)
    ((getFrame_highTaken n _).2 (by omega)) fun g hg => ?_, Pmm.note, if_pos hlow, highTaken]
  rw [← Bool.not_eq_false, getFrame_highTaken]
  omega

theorem pmmAllocFrame_highTaken_five : pmmAllocFrame (highTaken 5) =
    (0x10000003, (pmmSetFrame (highTaken 5) 0x10000003 true).note 0x10000003) := by
  refine pmmAllocFrame_eq (by decide) (by rw [highTaken_totalFrames]; decide)
    ((getFrame_highTaken 5 _).2 (by omega)) fun g hg => ?_
  rw [← Bool.not_eq_false, getFrame_highTaken]
  omega

/-- An empty address space in frame 2, after `n` allocations. -/
def highSpace (n : ℕ) : Vmm where
  pmm := highTaken n
  frames := (vmmCopyKernelPML4 (highStart.zeroFrame 2) 2 1).frames
  current := 2
  hhdmOffset := highStart.hhdmOffset

/-- A new table in frame `n + 2`, taken as allocation `n`. -/
def takeTable (s : Vmm) (n g i : ℕ) : Vmm :=
  ({ s with pmm := highTaken (n + 1) }.zeroFrame (n + 2)).setEntry g i (.make vmmFlagsTable (n + 2))

theorem nextTable_high {s : Vmm} {n g i : ℕ} (hn : n < 5) (hp : s.pmm = highTaken n)
    (hs : (s.frames g i).present = false) (hf : s.hhdm (n + 2) ≠ 0) :
    nextTable s g i = (some (n + 2), takeTable s n g i) :=
  nextTable_new hs (by rw [hp, pmmAllocFrame_highTaken hn]) hf

/-- The tables for the address 0x400000, in frames 4 to 6; frame 3 is taken for the page. -/
def highTables : Vmm := takeTable (takeTable (takeTable (highSpace 2) 2 2 0) 3 4 0) 4 5 2

/-- The address space with its page at 0x400000 in frame 3. -/
def highFirst : Vmm := highTables.setEntry 6 0 (.make 7 3)

theorem vmmMapPage_highSpace :
    vmmMapPage (highSpace 2) 0x400000 0x3000 7 = (true, highFirst) := by
  have h₄ : nextTable (highSpace 2) 2 0 = (some 4, takeTable (highSpace 2) 2 2 0) :=
    nextTable_high (n := 2) (by decide) rfl (by decide +kernel) (by decide +kernel)
  have h₃ : nextTable (takeTable (highSpace 2) 2 2 0) 4 0 =
      (some 5, takeTable (takeTable (highSpace 2) 2 2 0) 3 4 0) :=
    nextTable_high (n := 3) (by decide) rfl (by decide +kernel) (by decide +kernel)
  have h₂ : nextTable (takeTable (takeTable (highSpace 2) 2 2 0) 3 4 0) 5 2 = (some 6, highTables) :=
    nextTable_high (n := 4) (by decide) rfl (by decide +kernel) (by decide +kernel)
  have hi : tableIndex 4 0x400000 = 0 ∧ tableIndex 3 0x400000 = 0 ∧ tableIndex 2 0x400000 = 2 := by
    decide
  rw [vmmMapPage, hi.1, hi.2.1, hi.2.2, show (highSpace 2).current = 2 from rfl, h₄,
    withTable_some, h₃, withTable_some, h₂, withTable_some,
    mapEntry_reserved (by decide +kernel) (by decide +kernel)]
  rfl

theorem vmmCreatePML4_highStart :
    vmmCreatePML4 highStart = (some 2, { highStart with pmm := highTaken 1 }.zeroFrame 2) := by
  have hp : pmmAllocFrame highStart.pmm = (2, highTaken 1) :=
    pmmAllocFrame_highTaken (n := 0) (by decide)
  exact vmmCreatePML4_new hp (by decide +kernel)

theorem vmmAlloc_highSpace : vmmAlloc (highSpace 1) 0x400000 0x400fff 7 = (true, highFirst) := by
  have hmap : vmmMapPage (highSpace 2) (pageAt 0x400000 0) (3 * 4096) 7 = (true, highFirst) := by
    rw [show pageAt 0x400000 0 = 0x400000 by decide, vmmMapPage_highSpace]
  exact vmmAlloc_page (by decide) (pmmAllocFrame_highTaken (n := 1) (by decide)) (by decide) hmap

/-- **A second page gets frame `2 ^ 28 + 3`.** When it is freed, frame 3 is given back, in which the
first page still is. -/
theorem high_frame_shared : StartOk highStart 1 ∧ ∃ s, VmmReach highStart 1 (insert 2 {1}) s ∧
    s.pmm.outOfFrames = false ∧ translate s 2 0x400000 = some 3 ∧ pmmGetFrame s.pmm 3 = false := by
  have hstart : StartOk highStart 1 := .of_empty (fun _ _ => rfl) (by decide)
  have hspace : VmmReach highStart 1 (insert 2 {1}) (highSpace 1) :=
    .step (.step .start (.create vmmCreatePML4_highStart)) (.set (.inl rfl))
  have hfirst : VmmReach highStart 1 (insert 2 {1}) (vmmAlloc (highSpace 1) 0x400000 0x400fff 7).2 :=
    .step hspace (.alloc ⟨by decide, by decide⟩ (by decide))
  rw [vmmAlloc_highSpace] at hfirst
  have halloc : vmmAlloc highFirst 0x401000 0x401fff 7 = (true, _) :=
    vmmAlloc_page (by decide) pmmAllocFrame_highTaken_five (by decide)
      (Prod.ext (by decide +kernel) rfl)
  have hsecond : VmmReach highStart 1 (insert 2 {1})
      (vmmFree (vmmAlloc highFirst 0x401000 0x401fff 7).2 0x401000 0x401fff) :=
    .step (.step hfirst (.alloc ⟨by decide, by decide⟩ (by decide))) (.free ⟨by decide, by decide⟩)
  rw [halloc] at hsecond
  exact ⟨hstart, _, hsecond, by decide +kernel, by decide +kernel, by decide +kernel⟩

end EitanOS
