import EitanOS.Memory.Accounts

/-!
# The user half as a partial map

The four levels of tables below `current_PML4` mean a partial map from page numbers to frames with
flags, the `view`. On a well-formed user half (`UserHalfOk`) whose frames are below `2 ^ 28` the functions
of `vmm.c` compute on it.

* `view_setEntry_page`: writing an entry of a page table changes the view at one page.
* `LowHalfOk.linkTable`: a new, empty table does not change the view.
* **`translation_refines`**: `vmm_map_page`, `vmm_edit_page`, `vmm_unmap_page`, `vmm_is_mapped` and
  `vmm_virt_to_phys` refine the operations of the map.
-/

namespace EitanOS

open Forest

/-! ## The abstract map -/

/-- The flags of an entry: all of it but the address. -/
def PageEntry.flags (e : PageEntry) : PageEntry := { e with physicalAddr := 0 }

/-- A frame and flags. -/
abbrev Binding := ℕ × PageEntry

/-- A partial map from pages to bindings. -/
abbrev PageMap := ℕ → Option Binding

/-- Bind a page that is not bound. -/
def PageMap.map (σ : PageMap) (page : ℕ) (b : Binding) : Bool × PageMap :=
  match σ page with
  | none => (true, Function.update σ page (some b))
  | some _ => (false, σ)

/-- Change the flags of a page that is bound. -/
def PageMap.edit (σ : PageMap) (page : ℕ) (flags : PageEntry) : Bool × PageMap :=
  match σ page with
  | none => (false, σ)
  | some b => (true, Function.update σ page (some (b.1, flags)))

/-- Remove a page that is bound. -/
def PageMap.unmap (σ : PageMap) (page : ℕ) : Bool × PageMap :=
  match σ page with
  | none => (false, σ)
  | some _ => (true, Function.update σ page none)

/-- Pages are bound to frames below `2 ^ 28` only. -/
def PageMap.Low (σ : PageMap) : Prop := ∀ page b, σ page = some b → b.1 < 2 ^ 28

namespace PageMap.Low

variable {σ : PageMap} {page : ℕ} {b : Binding} {flags : PageEntry}

theorem update (h : σ.Low) {b : Option Binding} (hb : ∀ x, b = some x → x.1 < 2 ^ 28) :
    PageMap.Low (Function.update σ page b) := by
  intro q x hx
  by_cases e : q = page
  · rw [e, Function.update_self] at hx
    exact hb x hx
  · rw [Function.update_of_ne e] at hx
    exact h q x hx

theorem map (h : σ.Low) (hb : b.1 < 2 ^ 28) : (σ.map page b).2.Low := by
  unfold PageMap.map
  split
  · refine h.update fun x e => ?_
    cases e
    exact hb
  · exact h

theorem edit (h : σ.Low) : (σ.edit page flags).2.Low := by
  unfold PageMap.edit
  split
  · exact h
  · rename_i b e
    have hb := h page b e
    refine h.update fun x e' => ?_
    cases e'
    exact hb

theorem unmap (h : σ.Low) : (σ.unmap page).2.Low := by
  unfold PageMap.unmap
  split
  · exact h
  · refine h.update fun x e => ?_
    cases e

end PageMap.Low

/-! ## What the tables mean -/

/-- What an entry of a page table binds its page to. -/
def PageEntry.binding (e : PageEntry) : Option Binding :=
  if e.present then some (e.physicalAddr.toNat, e.flags) else none

/-- The map the user half of `current_PML4` stands for. Pages of the user half have 35 bits. -/
def view (s : Vmm) : PageMap := fun page =>
  if page < 2 ^ 35 then
    (tableOf s s.current (page * 4096)).bind fun pt =>
      (s.frames pt (tableIndex 1 (page * 4096))).binding
  else none

/-- The slots that lead to the page table of an address. -/
def tableSlots (virt : ℕ) : List ℕ := [tableIndex 2 virt, tableIndex 3 virt, tableIndex 4 virt]

variable {s s' : Vmm} {g i n virt page f : ℕ} {l : List ℕ} {e : PageEntry}

theorem tableIndex_page (level virt : ℕ) :
    tableIndex level (virt / 4096 * 4096) = tableIndex level virt := by
  have h4096 : (4096 : ℕ) = 2 ^ 12 := rfl
  unfold tableIndex
  rw [pow_add, ← Nat.div_div_eq_div_mul, ← Nat.div_div_eq_div_mul, h4096,
    Nat.mul_div_cancel _ (by decide)]

theorem tableOf_page (s : Vmm) (p virt : ℕ) :
    tableOf s p (virt / 4096 * 4096) = tableOf s p virt := by
  unfold tableOf
  rw [tableIndex_page, tableIndex_page, tableIndex_page]

theorem view_page (hv : virt < 2 ^ 47) : view s (virt / 4096) =
    (tableOf s s.current virt).bind fun pt => (s.frames pt (tableIndex 1 virt)).binding := by
  have hp : virt / 4096 < 2 ^ 35 := by omega
  unfold view
  rw [if_pos hp, tableOf_page, tableIndex_page]

theorem tableOf_iff (hv : virt < 2 ^ 47) : tableOf s s.current virt = some g ↔
    (userForest s {s.current}).Node s.current (tableSlots virt) g := by
  refine ⟨fun h => tableOf_node (Set.mem_singleton _) hv h, fun h => ?_⟩
  unfold tableSlots at h
  cases h with
  | slot h₂ _ _ e₂ =>
    cases h₂ with
    | slot h₃ _ _ e₃ =>
      cases h₃ with
      | slot h₄ _ _ e₄ =>
        cases h₄ with
        | root =>
          unfold tableOf
          rw [show leadsTo s s.current (tableIndex 4 virt) = some _ from e₄, Option.bind_some,
            show leadsTo s _ (tableIndex 3 virt) = some _ from e₃, Option.bind_some]
          exact e₂

/-- **The view along the tables.** -/
theorem view_eq_some {b : Binding} (hv : virt < 2 ^ 47) : view s (virt / 4096) = some b ↔
    ∃ pt, (userForest s {s.current}).Node s.current (tableSlots virt) pt ∧
      (s.frames pt (tableIndex 1 virt)).binding = some b := by
  rw [view_page hv, Option.bind_eq_some_iff]
  refine exists_congr fun pt => and_congr_left fun _ => tableOf_iff hv

theorem PageMap.ext_view {σ : PageMap} (hout : ∀ page, ¬ page < 2 ^ 35 → σ page = none)
    (h : ∀ virt < 2 ^ 47, ∀ b, view s (virt / 4096) = some b ↔ σ (virt / 4096) = some b) :
    view s = σ := by
  funext page
  by_cases hp : page < 2 ^ 35
  · have := h (page * 4096) (by omega)
    rw [Nat.mul_div_cancel _ (by decide)] at this
    exact Option.ext fun b => this b
  · rw [hout page hp]
    exact if_neg hp

theorem view_outside (s : Vmm) {page : ℕ} (hp : ¬ page < 2 ^ 35) : view s page = none := if_neg hp

theorem node_setEntry_page (hs : s.half.Separate)
    (hg : s.half.Node s.current (tableSlots virt) g) (hl : l.length ≤ 3) {p : ℕ} :
    (s.setEntry g i e).half.Node p l f ↔ s.half.Node p l f := by
  refine Node.iff_of_agree_above (agree_setEntry s {s.current} g i e) ?_ hl
  rintro p' l' g' i' hn hl' - - ⟨rfl, -⟩
  -- a page table is no table of a higher level
  have := congrArg List.length (hs _ _ _ _ _ hn hg).2
  simp only [tableSlots, List.length_cons, List.length_nil] at this
  omega

/-! ## Entries that lead to tables -/

/-- The present entries of the user half above the page tables are all of some kind. -/
def LinkEntries (P : PageEntry → Prop) (s : Vmm) : Prop :=
  ∀ p l g i, s.half.Node p l g → l.length < 3 → s.half.allowed l.length i →
    (s.frames g i).present = true → P (s.frames g i)

namespace LinkEntries

variable {P : PageEntry → Prop}

theorem empty (he : ∀ i < 256, (s.frames s.current i).present = false) : LinkEntries P s := by
  intro p l g i hn _ hi hp
  obtain ⟨rfl, rfl, rfl⟩ := node_of_empty he hn
  rw [he i (hi.2 rfl)] at hp
  cases hp

theorem zeroFrame (h : LinkEntries P s) (hn : s.half.Fresh n) : LinkEntries P (s.zeroFrame n) := by
  intro p l g i hg hl hi hp
  have hg' := (zeroFrame_node hn).1 hg
  have hsame : (s.zeroFrame n).frames g i = s.frames g i := by
    rw [frames_zeroFrame, if_neg fun e => hn _ _ (e ▸ hg')]
  rw [hsame] at hp ⊢
  exact h p l g i hg' hl hi hp

theorem link (h : LinkEntries P s) (he : P e) (hne : n ≠ g)
    (hz : ∀ j, (s.frames n j).present = false)
    (hnode : ∀ p' l' f, (s.setEntry g i e).half.Node p' l' f ↔
      s.half.Node p' l' f ∨ p' = s.current ∧ l' = i :: l ∧ f = n) :
    LinkEntries P (s.setEntry g i e) := by
  intro p' l' g' j hg' hl' hj hp
  rw [frames_setEntry] at hp ⊢
  split_ifs at hp ⊢ with hgi
  · exact he
  · rcases (hnode _ _ _).1 hg' with hg' | ⟨-, -, rfl⟩
    · exact h p' l' g' j hg' hl' hj hp
    · rw [hz] at hp
      cases hp

theorem setEntry_page (h : LinkEntries P s) (hs : s.half.Separate)
    (hg : s.half.Node s.current (tableSlots virt) g) : LinkEntries P (s.setEntry g i e) := by
  intro p' l' g' j hg' hl' hj hp
  have hg'' := (node_setEntry_page hs hg hl'.le).1 hg'
  have hne : ¬ (g' = g ∧ j = i) := by
    rintro ⟨rfl, -⟩
    have := congrArg List.length (hs _ _ _ _ _ hg'' hg).2
    simp only [tableSlots, List.length_cons, List.length_nil] at this
    omega
  rw [frames_setEntry, if_neg hne] at hp ⊢
  exact h p' l' g' j hg'' hl' hj hp

end LinkEntries

/-- Between the two states tables were linked as `vmm_map_page` does it, if any were. -/
def KeepsLinks (s s' : Vmm) : Prop :=
  ∀ P : PageEntry → Prop, (∀ n, P (.make vmmFlagsTable n)) → LinkEntries P s → LinkEntries P s'

theorem KeepsLinks.refl (s : Vmm) : KeepsLinks s s := fun _ _ h => h

theorem KeepsLinks.trans {s'' : Vmm} (h : KeepsLinks s s') (h' : KeepsLinks s' s'') :
    KeepsLinks s s'' := fun P hP hs => h' P hP (h P hP hs)

theorem keepsLinks_setEntry_page (hs : s.half.Separate)
    (hg : s.half.Node s.current (tableSlots virt) g) : KeepsLinks s (s.setEntry g i e) :=
  fun _ _ h => h.setEntry_page hs hg

/-! ## A well-formed user half -/

/-- **A well-formed user half**: no frame is reached twice below `current_PML4`, all frames reached
exist and are marked as used, and there are no huge pages. Every frame has an address in the direct
map. -/
structure UserHalfOk (s : Vmm) : Prop where
  separate : (userForest s {s.current}).Separate
  used : ∀ p l f, (userForest s {s.current}).Node p l f → pmmGetFrame s.pmm f = true
  below : ∀ p l f, (userForest s {s.current}).Node p l f → f < s.pmm.totalFrames
  noHuge : ∀ p l g i, (userForest s {s.current}).Node p l g → l.length < 3 →
    (userForest s {s.current}).allowed l.length i → (s.frames g i).present = true →
    (s.frames g i).hugePage = false
  directMap : ∀ f < s.pmm.totalFrames, s.hhdm f ≠ 0

/-- A well-formed user half whose page tables the code can find. -/
structure LowHalfOk (s : Vmm) : Prop extends UserHalfOk s where
  low : LowTables s {s.current}

/-- If the page is bound, its frame is below `2 ^ 28`. -/
def LowPage (s : Vmm) (page : ℕ) : Prop := ∀ b, view s page = some b → b.1 < 2 ^ 28

/-- A frame marked as used that is no table and no page of the user half. -/
structure Spare (s : Vmm) (n : ℕ) : Prop where
  used : pmmGetFrame s.pmm n = true
  below : n < s.pmm.totalFrames
  fresh : (userForest s {s.current}).Fresh n

/-- What making tables leaves as it was. -/
structure Grown (s s' : Vmm) : Prop where
  ok : LowHalfOk s'
  current : s'.current = s.current
  view_eq : view s' = view s
  spare : ∀ n, Spare s n → Spare s' n

theorem Grown.trans {s'' : Vmm} (h : Grown s s') (h' : Grown s' s'') : Grown s s'' :=
  ⟨h'.ok, h'.current.trans h.current, h'.view_eq.trans h.view_eq, fun n hn => h'.spare n (h.spare n hn)⟩

theorem binding_make {flags addr : ℕ} (hf : flags.testBit 0 = true) (ha : addr < 2 ^ 40) :
    (PageEntry.make flags addr).binding = some (addr, (PageEntry.ofFlags flags).flags) := by
  have hp : (PageEntry.make flags addr).present = true := hf
  have hn : (PageEntry.make flags addr).physicalAddr.toNat = addr :=
    (BitVec.toNat_ofNat addr 40).trans (Nat.mod_eq_of_lt ha)
  rw [PageEntry.binding, if_pos hp, hn]
  rfl

/-- **Writing an entry of a page table** changes the view at its page only. -/
theorem view_setEntry_page (hs : (userForest s {s.current}).Separate) (hv : virt < 2 ^ 47)
    (hg : (userForest s {s.current}).Node s.current (tableSlots virt) g) :
    view (s.setEntry g (tableIndex 1 virt) e) =
      Function.update (view s) (virt / 4096) e.binding := by
  refine PageMap.ext_view (fun page hp => ?_) fun virt' hv' b => ?_
  · rw [Function.update_of_ne (by omega)]
    exact view_outside s hp
  have hnode : ∀ pt, (userForest (s.setEntry g (tableIndex 1 virt) e) {s.current}).Node s.current
      (tableSlots virt') pt ↔ s.half.Node s.current (tableSlots virt') pt :=
    fun pt => node_setEntry_page hs hg le_rfl
  rw [view_eq_some hv', setEntry_current]
  simp only [hnode, frames_setEntry]
  by_cases hpage : virt' / 4096 = virt / 4096
  · have hidx : ∀ level, tableIndex level virt' = tableIndex level virt := fun level => by
      rw [← tableIndex_page level virt', hpage, tableIndex_page]
    have hslots : tableSlots virt' = tableSlots virt := by
      unfold tableSlots
      rw [hidx, hidx, hidx]
    rw [hpage, Function.update_self, hslots, hidx]
    constructor
    · rintro ⟨pt, hpt, hb⟩
      rwa [hg.unique hpt, if_pos ⟨rfl, rfl⟩] at hb
    · intro hb
      exact ⟨g, hg, by rwa [if_pos ⟨rfl, rfl⟩]⟩
  · rw [Function.update_of_ne hpage, view_eq_some hv']
    refine exists_congr fun pt => and_congr_right fun hpt => ?_
    have hne : ¬ (pt = g ∧ tableIndex 1 virt' = tableIndex 1 virt) := by
      rintro ⟨rfl, e₁⟩
      -- one table is the page table of one range of addresses
      have hl := (hs _ _ _ _ _ hpt hg).2
      simp only [tableSlots, List.cons.injEq, and_true] at hl
      exact hpage (page_eq_of_tableIndex hv' hv e₁ hl.1 hl.2.1 hl.2.2)
    rw [if_neg hne]

namespace LowHalfOk

theorem linkEntries (h : LowHalfOk s) : LinkEntries (fun e => e.hugePage = false) s := h.noHuge

theorem empty (he : ∀ i < 256, (s.frames s.current i).present = false)
    (hu : pmmGetFrame s.pmm s.current = true) (hb : s.current < s.pmm.totalFrames)
    (hd : ∀ f < s.pmm.totalFrames, s.hhdm f ≠ 0) : LowHalfOk s := by
  refine ⟨⟨fun p l p' l' f h₁ h₂ => ?_, fun p l f hn => ?_, fun p l f hn => ?_,
    @LinkEntries.empty s (fun e => e.hugePage = false) he, hd⟩,
    fun p l f hn hl => absurd (node_of_empty he hn).2.1 hl⟩
  · obtain ⟨rfl, rfl, -⟩ := node_of_empty he h₁
    obtain ⟨rfl, rfl, -⟩ := node_of_empty he h₂
    exact ⟨rfl, rfl⟩
  · exact (node_of_empty he hn).2.2 ▸ hu
  · exact (node_of_empty he hn).2.2 ▸ hb

theorem setFrame (h : LowHalfOk s) {used : Bool}
    (hn : used = false → (userForest s {s.current}).Fresh n) :
    LowHalfOk { s with pmm := pmmSetFrame s.pmm n used } := by
  refine ⟨⟨h.separate, fun p l f hf => ?_, h.below, h.noHuge, h.directMap⟩, h.low⟩
  show pmmGetFrame (pmmSetFrame s.pmm n used) f = true
  rw [getFrame_setFrame]
  split_ifs with hfn
  · cases used with
    | true => rfl
    | false => exact absurd (hfn ▸ hf) (hn rfl p l)
  · exact h.used p l f hf

/-- **`pmm_alloc_frame`** returns a spare frame; spare frames stay so. -/
theorem alloc (h : LowHalfOk s) (ho : (pmmAllocFrame s.pmm).2.outOfLowFrames = false) :
    Grown s { s with pmm := (pmmAllocFrame s.pmm).2 } ∧
      Spare { s with pmm := (pmmAllocFrame s.pmm).2 } (pmmAllocFrame s.pmm).1 ∧
      ∀ n, Spare s n → n ≠ (pmmAllocFrame s.pmm).1 := by
  obtain ⟨-, hlt, -, hfree, heq⟩ := pmmAllocFrame_spec ho
  have hfresh : (userForest s {s.current}).Fresh (pmmAllocFrame s.pmm).1 := fun p l hf => by
    rw [h.used p l _ hf] at hfree
    cases hfree
  rw [heq]
  refine ⟨⟨h.setFrame fun hu => absurd hu (by decide), rfl, rfl, fun n hn => ?_⟩, ?_, fun n hn => ?_⟩
  · refine ⟨?_, hn.below, hn.fresh⟩
    show pmmGetFrame (pmmSetFrame s.pmm _ true) n = true
    rw [getFrame_setFrame, hn.used, ite_self]
  · refine ⟨?_, hlt, hfresh⟩
    show pmmGetFrame (pmmSetFrame s.pmm _ true) _ = true
    rw [getFrame_setFrame, if_pos rfl]
  · rintro rfl
    rw [hn.used] at hfree
    cases hfree

theorem zeroFrame (h : LowHalfOk s) (hn : Spare s n) : Grown s (s.zeroFrame n) := by
  have hsame : ∀ {p l g}, (userForest s {s.current}).Node p l g → ∀ i,
      (s.zeroFrame n).frames g i = s.frames g i := fun hg i => by
    rw [frames_zeroFrame, if_neg fun e => hn.fresh _ _ (e ▸ hg)]
  have hnode : ∀ {p l f}, (userForest (s.zeroFrame n) {s.current}).Node p l f ↔
      (userForest s {s.current}).Node p l f := zeroFrame_node hn.fresh
  refine ⟨⟨⟨h.separate.congr fun p l f => hnode.1, fun p l f hf => h.used p l f (hnode.1 hf),
    fun p l f hf => h.below p l f (hnode.1 hf), h.linkEntries.zeroFrame hn.fresh, h.directMap⟩,
    fun p l f hf => h.low p l f (hnode.1 hf)⟩, rfl, ?_, fun n' hn' => ⟨hn'.used, hn'.below, fun p l hf => hn'.fresh p l (hnode.1 hf)⟩⟩
  refine PageMap.ext_view (fun page hp => view_outside s hp) fun virt hv b => ?_
  rw [view_eq_some hv, view_eq_some hv]
  refine exists_congr fun pt => ?_
  rw [zeroFrame_current, hnode]
  exact and_congr_right fun hpt => by rw [hsame hpt]

/-- **Linking a new table**: it is empty, so nothing new is mapped. -/
theorem linkTable (h : LowHalfOk s) (hg : (userForest s {s.current}).Node s.current l g)
    (hl : l.length < 3) (hi : (userForest s {s.current}).allowed l.length i)
    (he : leadsTo s g i = none) (hn : Spare s n) (hlow : n < 2 ^ 28) (hz : ∀ j, leadsTo s n j = none)
    (ht : e.target = some n) (hhuge : e.hugePage = false) :
    LowHalfOk (s.setEntry g i e) ∧ view (s.setEntry g i e) = view s ∧
      ∀ p' l' f, (userForest (s.setEntry g i e) {s.current}).Node p' l' f ↔
        (userForest s {s.current}).Node p' l' f ∨ p' = s.current ∧ l' = i :: l ∧ f = n := by
  have hlink := links_setEntry hg (by omega) hi he hn.fresh (fun _ => hz) ht
  have hiff {p' l' f} : (userForest (s.setEntry g i e) {s.current}).Node p' l' f ↔
      (userForest s {s.current}).Node p' l' f ∨ p' = s.current ∧ l' = i :: l ∧ f = n :=
    node_link hlink h.separate
  -- the entries of the new table, and of the old ones but for the one that was written
  have hnew : ∀ j, (s.setEntry g i e).frames n j = s.frames n j := fun j => by
    rw [frames_setEntry, if_neg fun hgi => hlink.ne hgi.1]
  have hnone : ∀ j, (s.frames n j).present = false := fun j => by
    have := hz j
    unfold leadsTo PageEntry.target at this
    split_ifs at this with hp
    exact Bool.eq_false_iff.2 hp
  refine ⟨⟨⟨hlink.separate h.separate, fun p' l' f hf => ?_, fun p' l' f hf => ?_,
    h.linkEntries.link hhuge hlink.ne hnone fun _ _ _ => hiff, h.directMap⟩, fun p' l' f hf hl' hle => ?_⟩,
    ?_, fun p' l' f => hiff⟩
  · rcases hiff.1 hf with hf | ⟨-, -, rfl⟩
    · exact h.used p' l' f hf
    · exact hn.used
  · rcases hiff.1 hf with hf | ⟨-, -, rfl⟩
    · exact h.below p' l' f hf
    · exact hn.below
  · rcases hiff.1 hf with hf | ⟨-, -, rfl⟩
    · exact h.low p' l' f hf hl' hle
    · exact hlow
  · refine PageMap.ext_view (fun page hp => view_outside s hp) fun virt hv b => ?_
    rw [view_eq_some hv, view_eq_some hv, setEntry_current]
    have hold : ∀ pt, (userForest s {s.current}).Node s.current (tableSlots virt) pt →
        (s.setEntry g i e).frames pt (tableIndex 1 virt) = s.frames pt (tableIndex 1 virt) := by
      intro pt hpt
      rw [frames_setEntry, if_neg]
      rintro ⟨rfl, -⟩
      have := congrArg List.length (h.separate _ _ _ _ _ hpt hg).2
      simp only [tableSlots, List.length_cons, List.length_nil] at this
      omega
    constructor
    · rintro ⟨pt, hpt, hb⟩
      rcases hiff.1 hpt with hpt | ⟨-, -, rfl⟩
      · exact ⟨pt, hpt, by rwa [hold pt hpt] at hb⟩
      · rw [hnew, PageEntry.binding, hnone] at hb
        cases hb
    · rintro ⟨pt, hpt, hb⟩
      exact ⟨pt, hiff.2 (.inl hpt), by rwa [hold pt hpt]⟩

/-- **One level of `vmm_map_page`** leads one level down and maps nothing. -/
theorem nextTable (h : LowHalfOk s) (hg : (userForest s {s.current}).Node s.current l g)
    (hl : l.length < 3) (hi : (userForest s {s.current}).allowed l.length i)
    (ho : (nextTable s g i).2.pmm.outOfLowFrames = false) :
    ∃ t s', EitanOS.nextTable s g i = (some t, s') ∧ Grown s s' ∧ Accounts ∅ s s' ∧
      KeepsLinks s s' ∧ (userForest s' {s'.current}).Node s'.current (i :: l) t := by
  have hl' : l.length < 4 := by omega
  unfold EitanOS.nextTable at ho ⊢
  dsimp only at ho ⊢
  by_cases hp : (s.frames g i).present
  · rw [if_pos hp]
    exact ⟨_, s, rfl, ⟨h, rfl, rfl, fun n hn => hn⟩, .refl s, .refl s,
      .slot hg hl' hi ((h.low.walkTable_eq hg hl hi).symm.trans (if_pos hp))⟩
  · rw [if_neg hp] at ho ⊢
    have ho' : (pmmAllocFrame s.pmm).2.outOfLowFrames = false := by
      split_ifs at ho
      · exact ho
      · exact ho
    obtain ⟨hgrown, hn, hne⟩ := h.alloc ho'
    obtain ⟨hacc, hna⟩ := accounts_alloc ho'
    obtain ⟨-, -, hlow, -⟩ := pmmAllocFrame_spec ho'
    generalize pmmAllocFrame s.pmm = r at hgrown hn hne hacc hna hlow ⊢
    obtain ⟨n, pmm⟩ := r
    dsimp only at hgrown hn hne hacc hna hlow ⊢
    rw [if_neg (hgrown.ok.directMap n hn.below)]
    generalize hs₁ : ({ s with pmm := pmm } : Vmm) = s₁ at hgrown hn hacc ⊢
    have hg₁ : (userForest s₁ {s₁.current}).Node s₁.current l g := hs₁ ▸ hg
    have hgn : g ≠ n := fun e => hn.fresh _ l (e ▸ hg₁)
    have hz := hgrown.ok.zeroFrame hn
    have hclear : ∀ j, (s₁.zeroFrame n).frames n j = .ofFlags 0 := fun j => by
      rw [frames_zeroFrame, if_pos rfl]
    have hslots : ∀ j, leadsTo (s₁.zeroFrame n) n j = none := fun j => by
      unfold leadsTo
      rw [hclear]
      rfl
    have hempty : leadsTo (s₁.zeroFrame n) g i = none := by
      unfold leadsTo
      rw [frames_zeroFrame, if_neg hgn, ← hs₁]
      exact if_neg hp
    have hlt : n < 2 ^ 40 := hn.below.trans_le s₁.pmm.totalFrames_le
    obtain ⟨hok, hview, hiff⟩ := hz.ok.linkTable (e := .make vmmFlagsTable n)
      ((zeroFrame_node hn.fresh).2 hg₁) hl hi hempty (hz.spare n hn) hlow hslots
      (target_make (by decide) hlt) rfl
    have hacc' := (hacc.zeroFrame hn.fresh hna).link hz.ok.separate
      ((zeroFrame_node hn.fresh).2 hg₁) hi hiff hna
    have hlinks : KeepsLinks s ((s₁.zeroFrame n).setEntry g i (.make vmmFlagsTable n)) :=
      fun P hP hs => by
        have hs₁' : LinkEntries P s₁ := hs₁ ▸ hs
        exact (hs₁'.zeroFrame hn.fresh).link (hP n) hgn.symm (fun j => by rw [hclear]; rfl) hiff
    refine ⟨n, _, rfl, ⟨hok, hgrown.current, hview.trans (hz.view_eq.trans hgrown.view_eq),
      fun n' hn' => ?_⟩, hacc', hlinks, (hiff _ _ _).2 (.inr ⟨rfl, rfl, rfl⟩)⟩
    have hn₂ := hz.spare n' (hgrown.spare n' hn')
    refine ⟨hn₂.used, hn₂.below, fun p' l' hf => ?_⟩
    rcases (hiff _ _ _).1 hf with hf | ⟨-, -, e⟩
    · exact hn₂.fresh p' l' hf
    · exact hne n' hn' e

theorem vmmMapPage_table (h : LowHalfOk s) (hv : virt < 2 ^ 47) {phys flags : ℕ}
    (ho : (vmmMapPage s virt phys flags).2.pmm.outOfLowFrames = false) :
    ∃ pt s', vmmMapPage s virt phys flags = mapEntry s' pt virt phys flags ∧ Grown s s' ∧
      Accounts ∅ s s' ∧ KeepsLinks s s' ∧
      (userForest s' {s'.current}).Node s'.current (tableSlots virt) pt := by
  have out₃ := keepsOut_mapEntry virt phys flags
  have out₂ := keepsOut_withTable out₃ (tableIndex 2 virt)
  have out₁ := keepsOut_withTable out₂ (tableIndex 3 virt)
  unfold EitanOS.vmmMapPage at ho ⊢
  obtain ⟨pdpt, s₁, e₁, hs₁, ha₁, hk₁, hg₁⟩ := h.nextTable (.root (Set.mem_singleton _)) (by simp)
    ⟨tableIndex_lt 4 virt, fun _ => tableIndex_four_lt hv⟩ (withTable_outOfLowFrames out₁ ho)
  rw [e₁] at ho ⊢
  obtain ⟨pd, s₂, e₂, hs₂, ha₂, hk₂, hg₂⟩ := hs₁.ok.nextTable hg₁ (by simp)
    ⟨tableIndex_lt 3 virt, fun e => by simp at e⟩ (withTable_outOfLowFrames out₂ ho)
  simp only [withTable, e₂] at ho ⊢
  obtain ⟨pt, s₃, e₃, hs₃, ha₃, hk₃, hg₃⟩ := hs₂.ok.nextTable hg₂ (by simp)
    ⟨tableIndex_lt 2 virt, fun e => by simp at e⟩ (withTable_outOfLowFrames out₃ ho)
  simp only [e₃]
  exact ⟨pt, s₃, rfl, hs₁.trans (hs₂.trans hs₃), ha₁.trans (ha₂.trans ha₃),
    hk₁.trans (hk₂.trans hk₃), hg₃⟩

theorem allowed_page : (userForest s {s.current}).allowed (tableSlots virt).length
    (tableIndex 1 virt) := ⟨tableIndex_lt _ _, fun e => by simp [tableSlots] at e⟩

theorem setEntry_page (h : LowHalfOk s)
    (hg : (userForest s {s.current}).Node s.current (tableSlots virt) g)
    (hsep : (userForest (s.setEntry g (tableIndex 1 virt) e) {s.current}).Separate)
    (hnode : ∀ p' l' f,
      (userForest (s.setEntry g (tableIndex 1 virt) e) {s.current}).Node p' l' f →
        (userForest s {s.current}).Node p' l' f ∨
          pmmGetFrame s.pmm f = true ∧ f < s.pmm.totalFrames) :
    LowHalfOk (s.setEntry g (tableIndex 1 virt) e) := by
  refine ⟨⟨hsep, fun p' l' f hf => ?_, fun p' l' f hf => ?_,
    h.linkEntries.setEntry_page h.separate hg, h.directMap⟩, fun p' l' f hf hl hle =>
    h.low p' l' f ((node_setEntry_page h.separate hg hle).1 hf) hl hle⟩
  · rcases hnode p' l' f hf with hf | ⟨hf, -⟩
    · exact h.used p' l' f hf
    · exact hf
  · rcases hnode p' l' f hf with hf | ⟨-, hf⟩
    · exact h.below p' l' f hf
    · exact hf

theorem view_of_node (hv : virt < 2 ^ 47)
    (hg : (userForest s {s.current}).Node s.current (tableSlots virt) g) :
    view s (virt / 4096) = (s.frames g (tableIndex 1 virt)).binding := by
  rw [view_page hv, (tableOf_iff hv).2 hg, Option.bind_some]

theorem pageTable_eq (h : LowHalfOk s) (hv : virt < 2 ^ 47) :
    pageTable s virt = tableOf s s.current virt :=
  h.low.pageTable_eq (Set.mem_singleton _) hv

theorem frame_of_lowPage (hp : LowPage s (virt / 4096)) (hv : virt < 2 ^ 47)
    (hg : (userForest s {s.current}).Node s.current (tableSlots virt) g)
    (he : (s.frames g (tableIndex 1 virt)).present = true) :
    (s.frames g (tableIndex 1 virt)).frame = (s.frames g (tableIndex 1 virt)).physicalAddr.toNat := by
  refine frame_of_lt (hp ((s.frames g (tableIndex 1 virt)).physicalAddr.toNat,
    (s.frames g (tableIndex 1 virt)).flags) ?_)
  rw [view_of_node hv hg, PageEntry.binding, if_pos he]

/-- **The last step of `vmm_map_page`.** -/
theorem mapEntry (h : LowHalfOk s) (hv : virt < 2 ^ 47)
    (hg : (userForest s {s.current}).Node s.current (tableSlots virt) g) {phys flags : ℕ}
    (hn : Spare s (phys / 4096)) (hf : flags.testBit 0 = true) :
    ((mapEntry s g virt phys flags).1, view (EitanOS.mapEntry s g virt phys flags).2) =
      (view s).map (virt / 4096) (phys / 4096, (PageEntry.ofFlags flags).flags) ∧
    LowHalfOk (EitanOS.mapEntry s g virt phys flags).2 := by
  have hlt : phys / 4096 < 2 ^ 40 := hn.below.trans_le s.pmm.totalFrames_le
  unfold EitanOS.mapEntry PageMap.map
  rw [view_of_node hv hg]
  by_cases hp : (s.frames g (tableIndex 1 virt)).present
  · rw [if_pos hp, PageEntry.binding, if_pos hp]
    exact ⟨rfl, h⟩
  have hres : reserveUnlessReserved s.pmm (phys / 4096) = (true, s.pmm) := if_pos hn.used
  rw [if_neg hp, hres, PageEntry.binding, if_neg hp]
  dsimp only
  rw [if_pos rfl]
  have hlink := links_setEntry hg (by simp [tableSlots]) allowed_page
    (if_neg hp) hn.fresh (fun hl => absurd hl (by simp [tableSlots])) (target_make hf hlt)
  refine ⟨Prod.ext rfl ?_, h.setEntry_page hg (hlink.separate h.separate) fun p' l' f hf => ?_⟩
  · show view (s.setEntry g (tableIndex 1 virt) _) = _
    rw [view_setEntry_page h.separate hv hg, binding_make hf hlt]
  · rcases (node_link hlink h.separate).1 hf with hf | ⟨-, -, rfl⟩
    · exact .inl hf
    · exact .inr ⟨hn.used, hn.below⟩

theorem mapEntry_accounts {s₀ : Vmm} (h : LowHalfOk s) (hv : virt < 2 ^ 47)
    (hg : (userForest s {s.current}).Node s.current (tableSlots virt) g) {phys flags : ℕ}
    (hn : Spare s (phys / 4096)) (hf : flags.testBit 0 = true)
    (hacc : Accounts {phys / 4096} s₀ s) (ha : ¬ Apart s₀ (phys / 4096))
    (hnone : view s (virt / 4096) = none) :
    Accounts ∅ s₀ (EitanOS.mapEntry s g virt phys flags).2 := by
  have hlt : phys / 4096 < 2 ^ 40 := hn.below.trans_le s.pmm.totalFrames_le
  have hp : ¬ (s.frames g (tableIndex 1 virt)).present = true := fun hp => by
    rw [view_of_node hv hg, PageEntry.binding, if_pos hp] at hnone
    cases hnone
  have hres : reserveUnlessReserved s.pmm (phys / 4096) = (true, s.pmm) := if_pos hn.used
  have hlink := links_setEntry hg (by simp [tableSlots]) allowed_page
    (if_neg hp) hn.fresh (fun hl => absurd hl (by simp [tableSlots])) (target_make hf hlt)
  unfold EitanOS.mapEntry
  rw [if_neg hp, hres]
  exact hacc.link h.separate hg allowed_page (fun _ _ _ => node_link hlink h.separate) ha

theorem mapEntry_keepsLinks (hs : s.half.Separate)
    (hg : s.half.Node s.current (tableSlots virt) g) (phys flags : ℕ) :
    KeepsLinks s (EitanOS.mapEntry s g virt phys flags).2 := by
  unfold EitanOS.mapEntry
  dsimp only
  split_ifs
  · exact .refl s
  · exact keepsLinks_setEntry_page hs hg
  · exact .refl s

/-- **`vmm_map_page`** binds a page that is not bound. -/
theorem vmmMapPage (h : LowHalfOk s) (hv : virt < 2 ^ 47) {phys flags : ℕ}
    (hn : Spare s (phys / 4096)) (hf : flags.testBit 0 = true)
    (ho : (vmmMapPage s virt phys flags).2.pmm.outOfLowFrames = false) :
    ((EitanOS.vmmMapPage s virt phys flags).1, view (EitanOS.vmmMapPage s virt phys flags).2) =
      (view s).map (virt / 4096) (phys / 4096, (PageEntry.ofFlags flags).flags) ∧
    LowHalfOk (EitanOS.vmmMapPage s virt phys flags).2 := by
  obtain ⟨pt, s', e, hs, -, -, hg⟩ := h.vmmMapPage_table hv ho
  rw [e, ← hs.view_eq]
  exact hs.ok.mapEntry hv hg (hs.spare _ hn) hf

/-- **`vmm_edit_page`** changes the flags of a page that is bound. -/
theorem vmmEditPage (h : LowHalfOk s) (hv : virt < 2 ^ 47) {flags : ℕ}
    (hf : flags.testBit 0 = true) (hlow : LowPage s (virt / 4096)) :
    ((vmmEditPage s virt 0 flags).1, view (EitanOS.vmmEditPage s virt 0 flags).2) =
      (view s).edit (virt / 4096) (PageEntry.ofFlags flags).flags ∧
    LowHalfOk (EitanOS.vmmEditPage s virt 0 flags).2 := by
  have hne : flags ≠ 0 := by
    rintro rfl
    cases hf
  unfold EitanOS.vmmEditPage PageMap.edit
  rw [h.pageTable_eq hv]
  cases e : tableOf s s.current virt with
  | none =>
    rw [view_page hv, e]
    exact ⟨rfl, h⟩
  | some pt =>
    have hg := (tableOf_iff hv).1 e
    rw [view_of_node hv hg]
    dsimp only
    by_cases hp : (s.frames pt (tableIndex 1 virt)).present
    · rw [if_pos hp, if_pos hne, if_neg (not_not.2 rfl), PageEntry.binding, if_pos hp,
        frame_of_lowPage hlow hv hg hp]
      set a := (s.frames pt (tableIndex 1 virt)).physicalAddr.toNat with ha
      have hlt : a < 2 ^ 40 := BitVec.isLt _
      have heq : userForest (s.setEntry pt (tableIndex 1 virt) (.make flags a)) {s.current} =
          userForest s {s.current} :=
        userForest_relabel ((target_make hf hlt).trans (if_pos hp).symm)
      refine ⟨Prod.ext rfl ?_, h.setEntry_page hg (heq ▸ h.separate) fun p' l' f hf => ?_⟩
      · show view (s.setEntry pt (tableIndex 1 virt) _) = _
        rw [view_setEntry_page h.separate hv hg, binding_make hf hlt]
      · rw [heq] at hf
        exact .inl hf
    · rw [if_neg hp, PageEntry.binding, if_neg hp]
      exact ⟨rfl, h⟩

theorem vmmEditPage_keepsLinks (h : LowHalfOk s) (hv : virt < 2 ^ 47) (flags : ℕ) :
    KeepsLinks s (EitanOS.vmmEditPage s virt 0 flags).2 := by
  unfold EitanOS.vmmEditPage
  rw [h.pageTable_eq hv]
  cases e : tableOf s s.current virt with
  | none => exact .refl s
  | some pt =>
    have hg := (tableOf_iff hv).1 e
    simp only [ne_eq, not_true_eq_false, if_false]
    split_ifs
    · exact .refl s
    · exact keepsLinks_setEntry_page h.separate hg
    · exact .refl s

theorem vmmEditPage_accounts {held : Set ℕ} {s₀ : Vmm} (h : LowHalfOk s) (hv : virt < 2 ^ 47)
    {flags : ℕ} (hf : flags.testBit 0 = true) (hlow : LowPage s (virt / 4096))
    (hacc : Accounts held s₀ s) :
    Accounts held s₀ (EitanOS.vmmEditPage s virt 0 flags).2 := by
  have hne : flags ≠ 0 := by
    rintro rfl
    cases hf
  unfold EitanOS.vmmEditPage
  rw [h.pageTable_eq hv]
  cases e : tableOf s s.current virt with
  | none => exact hacc
  | some pt =>
    have hg := (tableOf_iff hv).1 e
    dsimp only
    split_ifs with hp h₀
    · exact absurd rfl h₀
    · exact absurd rfl h₀
    · rw [frame_of_lowPage hlow hv hg hp]
      exact hacc.relabel h.separate hg allowed_page
        ((target_make hf (BitVec.isLt _)).trans (if_pos hp).symm)
    · exact hacc

/-- **`vmm_unmap_page`** removes a page that is bound, and its frame is free then. -/
theorem vmmUnmapPage (h : LowHalfOk s) (hv : virt < 2 ^ 47) (hlow : LowPage s (virt / 4096)) :
    ((vmmUnmapPage s virt).1, view (EitanOS.vmmUnmapPage s virt).2) =
      (view s).unmap (virt / 4096) ∧
    (∀ f, pmmGetFrame (EitanOS.vmmUnmapPage s virt).2.pmm f =
      if (view s (virt / 4096)).map Prod.fst = some f then false else pmmGetFrame s.pmm f) ∧
    LowHalfOk (EitanOS.vmmUnmapPage s virt).2 := by
  unfold EitanOS.vmmUnmapPage PageMap.unmap
  rw [h.pageTable_eq hv]
  cases e : tableOf s s.current virt with
  | none =>
    rw [view_page hv, e]
    exact ⟨rfl, fun f => by simp, h⟩
  | some pt =>
    have hg := (tableOf_iff hv).1 e
    rw [view_of_node hv hg]
    dsimp only
    by_cases hp : (s.frames pt (tableIndex 1 virt)).present
    · rw [if_pos hp, PageEntry.binding, if_pos hp, frame_of_lowPage hlow hv hg hp]
      dsimp only
      set f := (s.frames pt (tableIndex 1 virt)).physicalAddr.toNat with hf
      have hpage : (userForest s {s.current}).Node s.current (tableIndex 1 virt :: tableSlots virt) f :=
        .slot hg (by simp [tableSlots, userForest]) allowed_page (if_pos hp)
      have hfree : freeIfReserved s.pmm f = pmmSetFrame s.pmm f false := if_pos (h.used _ _ _ hpage)
      have hunlink := unlinks_setEntry (i := tableIndex 1 virt)
        (e := { s.frames pt (tableIndex 1 virt) with present := false }) hg rfl rfl
      have hiff {p' f' : ℕ} {l' : List ℕ} :=
        @node_unlink _ _ _ _ s.current p' f' pt (tableSlots virt) l' _ hunlink h.separate
      rw [setEntry_pmm, hfree]
      refine ⟨Prod.ext rfl ?_, fun f' => ?_, ?_⟩
      · show view (s.setEntry pt (tableIndex 1 virt) _) = _
        rw [view_setEntry_page h.separate hv hg]
        rfl
      · show pmmGetFrame (pmmSetFrame s.pmm f false) f' = _
        rw [getFrame_setFrame]
        simp only [Option.map_some, Option.some.injEq, eq_comm]
      · refine (h.setEntry_page hg (hunlink.separate h.separate) fun p' l' f' hf' =>
          .inl (hiff.1 hf').1).setFrame fun _ p' l' hf' => ?_
        obtain ⟨hf', hne⟩ := hiff.1 hf'
        exact hne (h.separate _ _ _ _ _ hf' hpage)
    · rw [if_neg hp, PageEntry.binding, if_neg hp]
      exact ⟨rfl, fun f => by simp, h⟩

theorem vmmUnmapPage_accounts {s₀ : Vmm} (h : LowHalfOk s) (h₀ : LowHalfOk s₀) (hv : virt < 2 ^ 47)
    (hlow : LowPage s (virt / 4096)) (hacc : Accounts ∅ s₀ s)
    (hfree : ∀ b, view s (virt / 4096) = some b → pmmGetFrame s₀.pmm b.1 = false) :
    Accounts ∅ s₀ (EitanOS.vmmUnmapPage s virt).2 := by
  unfold EitanOS.vmmUnmapPage
  rw [h.pageTable_eq hv]
  cases e : tableOf s s.current virt with
  | none => exact hacc
  | some pt =>
    have hg := (tableOf_iff hv).1 e
    dsimp only
    split_ifs with hp
    · rw [frame_of_lowPage hlow hv hg hp]
      set f := (s.frames pt (tableIndex 1 virt)).physicalAddr.toNat with hf
      have hwalk : leadsTo s pt (tableIndex 1 virt) = some f := if_pos hp
      have hpage : (userForest s {s.current}).Node s.current (tableIndex 1 virt :: tableSlots virt) f :=
        .slot hg (by simp [tableSlots, userForest]) allowed_page hwalk
      have hset : freeIfReserved s.pmm f = pmmSetFrame s.pmm f false := if_pos (h.used _ _ _ hpage)
      rw [setEntry_pmm, hset]
      have hb : view s (virt / 4096) = some (f, (s.frames pt (tableIndex 1 virt)).flags) := by
        rw [view_of_node hv hg, PageEntry.binding, if_pos hp]
      have hfr := hfree _ hb
      dsimp only at hfr
      have hunlink := unlinks_setEntry (i := tableIndex 1 virt)
        (e := { s.frames pt (tableIndex 1 virt) with present := false }) hg rfl rfl
      exact hacc.unlink h.separate hunlink allowed_page hwalk hfr fun l f => h₀.used _ l f
    · exact hacc

/-- **`vmm_is_mapped`** says whether the page is bound. -/
theorem vmmIsMapped (h : LowHalfOk s) (hv : virt < 2 ^ 47) :
    vmmIsMapped s virt = (view s (virt / 4096)).isSome := by
  unfold EitanOS.vmmIsMapped
  rw [view_page hv, h.pageTable_eq hv]
  cases tableOf s s.current virt with
  | none => rfl
  | some pt =>
    simp only [Option.bind_some, PageEntry.binding]
    split_ifs with hp
    · exact hp
    · exact Bool.eq_false_iff.2 hp

/-- **`vmm_virt_to_phys`** is the address of the frame the page is bound to. -/
theorem vmmVirtToPhys (h : LowHalfOk s) (hv : virt < 2 ^ 47) (hlow : LowPage s (virt / 4096)) :
    vmmVirtToPhys s virt = ((view s (virt / 4096)).map fun b => b.1 * 4096).getD 0 := by
  unfold EitanOS.vmmVirtToPhys
  rw [view_page hv, h.pageTable_eq hv]
  cases e : tableOf s s.current virt with
  | none => rfl
  | some pt =>
    have hg := (tableOf_iff hv).1 e
    simp only [Option.bind_some, PageEntry.binding]
    by_cases hp : (s.frames pt (tableIndex 1 virt)).present
    · have hused := h.used _ _ _ (.slot hg (by simp [tableSlots, userForest]) allowed_page (if_pos hp))
      rw [if_pos hp, if_pos hp, frame_of_lowPage hlow hv hg hp, Nat.mul_div_cancel _ (by decide),
        pmmIsReserved, if_pos hused]
      rfl
    · rw [if_neg hp, if_neg hp]
      rfl

end LowHalfOk

/-- **What the functions of `vmm.c` have to do** at an address of the user half: `vmm_map_page` of a
spare frame (while `pmm_alloc_frame` returns frames below `2 ^ 28`), `vmm_edit_page` of the flags and
`vmm_unmap_page` return and do to the view what the operations of the map do, so that all other pages
stay as they are; an unmapped page's frame, and no other, is marked as free; the two lookups return
what the map has; and the user half stays well formed. -/
structure Refines (s : Vmm) (virt : ℕ) : Prop where
  map : ∀ phys flags, Spare s (phys / 4096) → flags.testBit 0 = true →
    (vmmMapPage s virt phys flags).2.pmm.outOfLowFrames = false →
    ((vmmMapPage s virt phys flags).1, view (vmmMapPage s virt phys flags).2) =
        (view s).map (virt / 4096) (phys / 4096, (PageEntry.ofFlags flags).flags) ∧
      UserHalfOk (vmmMapPage s virt phys flags).2
  edit : ∀ flags, flags.testBit 0 = true →
    ((vmmEditPage s virt 0 flags).1, view (vmmEditPage s virt 0 flags).2) =
        (view s).edit (virt / 4096) (PageEntry.ofFlags flags).flags ∧
      UserHalfOk (vmmEditPage s virt 0 flags).2
  unmap : ((vmmUnmapPage s virt).1, view (vmmUnmapPage s virt).2) = (view s).unmap (virt / 4096)
  unmap_frame : ∀ f, pmmGetFrame (vmmUnmapPage s virt).2.pmm f =
    if (view s (virt / 4096)).map Prod.fst = some f then false else pmmGetFrame s.pmm f
  unmap_ok : UserHalfOk (vmmUnmapPage s virt).2
  isMapped : vmmIsMapped s virt = (view s (virt / 4096)).isSome
  virtToPhys : vmmVirtToPhys s virt = ((view s (virt / 4096)).map fun b => b.1 * 4096).getD 0

/-- All page tables and pages of the user half are in frames below `2 ^ 28`. -/
structure LowFrames (s : Vmm) : Prop where
  tables : LowTables s {s.current}
  pages : (view s).Low

theorem LowHalfOk.refines (h : LowHalfOk s) (hlow : LowPage s (virt / 4096)) (hv : virt < 2 ^ 47) :
    Refines s virt where
  map _ _ hn hf ho := (h.vmmMapPage hv hn hf ho).imp_right LowHalfOk.toUserHalfOk
  edit _ hf := (h.vmmEditPage hv hf hlow).imp_right LowHalfOk.toUserHalfOk
  unmap := (h.vmmUnmapPage hv hlow).1
  unmap_frame := (h.vmmUnmapPage hv hlow).2.1
  unmap_ok := (h.vmmUnmapPage hv hlow).2.2.toUserHalfOk
  isMapped := h.vmmIsMapped hv
  virtToPhys := h.vmmVirtToPhys hv hlow

/-- **The frames stay below `2 ^ 28`**, if that of a page to be mapped is. -/
theorem LowFrames.kept (h : UserHalfOk s) (hlow : LowFrames s) (hv : virt < 2 ^ 47) {flags : ℕ}
    (hf : flags.testBit 0 = true) :
    (∀ phys, Spare s (phys / 4096) → phys / 4096 < 2 ^ 28 →
      (vmmMapPage s virt phys flags).2.pmm.outOfLowFrames = false →
      LowFrames (vmmMapPage s virt phys flags).2) ∧
    LowFrames (vmmEditPage s virt 0 flags).2 ∧ LowFrames (vmmUnmapPage s virt).2 := by
  have hok : LowHalfOk s := ⟨h, hlow.tables⟩
  have hpage : LowPage s (virt / 4096) := hlow.pages _
  refine ⟨fun phys hn hphys ho => ?_, ?_, ?_⟩
  · obtain ⟨hmap, hok'⟩ := hok.vmmMapPage hv hn hf ho
    have hview : view (vmmMapPage s virt phys flags).2 = ((view s).map (virt / 4096) (phys / 4096, (PageEntry.ofFlags flags).flags)).2 := congrArg Prod.snd hmap
    refine ⟨hok'.low, ?_⟩
    rw [hview]
    exact hlow.pages.map (b := (phys / 4096, (PageEntry.ofFlags flags).flags)) hphys
  · obtain ⟨hedit, hok'⟩ := hok.vmmEditPage hv hf hpage
    have hview : view (vmmEditPage s virt 0 flags).2 = ((view s).edit (virt / 4096) (PageEntry.ofFlags flags).flags).2 := congrArg Prod.snd hedit
    refine ⟨hok'.low, ?_⟩
    rw [hview]
    exact hlow.pages.edit
  · obtain ⟨hunmap, -, hok'⟩ := hok.vmmUnmapPage hv hpage
    have hview : view (vmmUnmapPage s virt).2 = ((view s).unmap (virt / 4096)).2 := congrArg Prod.snd hunmap
    refine ⟨hok'.low, ?_⟩
    rw [hview]
    exact hlow.pages.unmap

theorem vmmVirtToPhys_lt (s : Vmm) (virt : ℕ) : vmmVirtToPhys s virt < 2 ^ 40 := by
  unfold vmmVirtToPhys
  cases pageTable s virt with
  | none => exact Nat.two_pow_pos 40
  | some pt =>
    have hlt := frame_lt (s.frames pt (tableIndex 1 virt))
    dsimp only
    split_ifs
    · omega
    · decide
    · decide

/-- **The functions of `vmm.c` refine a partial map** on a well-formed user half whose page tables and
pages are in frames below `2 ^ 28`, which they stay in. No other frame of a page can be looked up. -/
theorem translation_refines {s : Vmm} (h : UserHalfOk s) :
    (LowFrames s → ∀ virt < 2 ^ 47, Refines s virt ∧ ∀ flags, flags.testBit 0 = true →
      (∀ phys, Spare s (phys / 4096) → phys / 4096 < 2 ^ 28 →
        (vmmMapPage s virt phys flags).2.pmm.outOfLowFrames = false →
        LowFrames (vmmMapPage s virt phys flags).2) ∧
      LowFrames (vmmEditPage s virt 0 flags).2 ∧ LowFrames (vmmUnmapPage s virt).2) ∧
    ((∀ virt < 2 ^ 47, Refines s virt) → (view s).Low) := by
  refine ⟨fun hlow virt hv => ⟨LowHalfOk.refines ⟨h, hlow.tables⟩ (hlow.pages _) hv,
    fun flags hf => hlow.kept h hv hf⟩, fun hr page b hb => ?_⟩
  have hpage : page < 2 ^ 35 := by
    by_contra hp
    rw [view_outside s hp] at hb
    cases hb
  have hdiv : page * 4096 / 4096 = page := Nat.mul_div_cancel _ (by decide)
  have hphys := (hr (page * 4096) (by omega)).virtToPhys
  rw [hdiv, hb] at hphys
  have hlt := vmmVirtToPhys_lt s (page * 4096)
  rw [hphys] at hlt
  have hlt : b.1 * 4096 < 2 ^ 40 := hlt
  omega

/-- A machine of 16 frames of which the first three are used, the second one as an empty PML4. -/
def emptyHalf : Vmm where
  pmm := .sixteen fun _ => 7
  frames _ _ := .ofFlags 0
  current := 1
  hhdmOffset := 0xffff800000000000

theorem emptyHalf_ok : LowHalfOk emptyHalf :=
  .empty (fun _ _ => rfl) (by decide) (by decide) (by decide)

theorem emptyHalf_spare : Spare emptyHalf 2 :=
  ⟨by decide, by decide, fun _ _ hn =>
    absurd (node_of_empty (fun _ _ => rfl) hn).2.2 (by decide)⟩

theorem emptyHalf_view (page : ℕ) : view emptyHalf page = none := by
  unfold view
  split_ifs
  · rfl
  · rfl

theorem translation_refines_empty_half :
    (vmmMapPage emptyHalf 0x2000000 0x2000 7).1 = true ∧
      view (vmmMapPage emptyHalf 0x2000000 0x2000 7).2 0x2000 =
        some (2, (PageEntry.ofFlags 7).flags) := by
  have hv : 0x2000000 < 2 ^ 47 := by decide
  have hlow : LowFrames emptyHalf := ⟨emptyHalf_ok.low, fun page b hb => by
    rw [emptyHalf_view] at hb
    cases hb⟩
  have h := ((translation_refines emptyHalf_ok.toUserHalfOk).1 hlow _ hv).1
  have h := (h.map 0x2000 7 emptyHalf_spare (by decide) (by decide +kernel)).1
  rw [PageMap.map, emptyHalf_view] at h
  obtain ⟨h₁, h₂⟩ := Prod.mk.inj h
  refine ⟨h₁, ?_⟩
  rw [h₂]
  exact Function.update_self ..

/-! ## Frames from `2 ^ 28` on -/

/-- Entries that lead from frame 1 through frames 2 and 3 to the page table `pt` of the addresses from
0x2000000 on, and from there to the page at 0x2000000, if there is one. -/
def chain (pt : ℕ) (page : Option ℕ) (g i : ℕ) : PageEntry :=
  if g = 1 ∧ i = 0 then .make 7 2
  else if g = 2 ∧ i = 0 then .make 7 3
  else if g = 3 ∧ i = 16 then .make 7 pt
  else if g = pt ∧ i = 0 then (page.map fun f => .make 7 f).getD (.ofFlags 0)
  else .ofFlags 0

/-- A machine with a little more than `2 ^ 28` frames, with these entries. -/
def highMachine (bitmap : ℕ → UInt8) (pt : ℕ) (page : Option ℕ) : Vmm where
  pmm := .high bitmap
  frames := chain pt page
  current := 1
  hhdmOffset := 0xffff800000000000

section

variable {bitmap : ℕ → UInt8} {pt : ℕ} {page : Option ℕ}

theorem target_chain (hpt : pt < 2 ^ 40) (hpage : ∀ f, page = some f → f < 2 ^ 40)
    (h : (chain pt page g i).target = some f) :
    g = 1 ∧ i = 0 ∧ f = 2 ∨ g = 2 ∧ i = 0 ∧ f = 3 ∨ g = 3 ∧ i = 16 ∧ f = pt ∨
      g = pt ∧ i = 0 ∧ page = some f := by
  unfold chain at h
  split_ifs at h with h₁ h₂ h₃ h₄
  · rw [target_make rfl (by decide)] at h
    exact .inl ⟨h₁.1, h₁.2, (Option.some.inj h).symm⟩
  · rw [target_make rfl (by decide)] at h
    exact .inr (.inl ⟨h₂.1, h₂.2, (Option.some.inj h).symm⟩)
  · rw [target_make rfl hpt] at h
    exact .inr (.inr (.inl ⟨h₃.1, h₃.2, (Option.some.inj h).symm⟩))
  · cases page with
    | none => cases h
    | some f' =>
      have h : (PageEntry.make 7 f').target = some f := h
      rw [target_make rfl (hpage f' rfl)] at h
      exact .inr (.inr (.inr ⟨h₄.1, h₄.2, h⟩))
  · cases h

/-- What is reached in such a machine. -/
def OnChain (pt : ℕ) (page : Option ℕ) (l : List ℕ) (f : ℕ) : Prop :=
  l = [] ∧ f = 1 ∨ l = [0] ∧ f = 2 ∨ l = [0, 0] ∧ f = 3 ∨ l = [16, 0, 0] ∧ f = pt ∨
    l = [0, 16, 0, 0] ∧ page = some f

theorem onChain (hpt : 3 < pt ∧ pt < 2 ^ 40) (hpage : ∀ f, page = some f → f < 2 ^ 40) {p : ℕ}
    (h : (highMachine bitmap pt page).half.Node p l f) : p = 1 ∧ OnChain pt page l f := by
  induction h with
  | root hp => exact ⟨hp, .inl ⟨rfl, hp⟩⟩
  | @slot l g i f _ hl _ e ih =>
    obtain ⟨rfl, hg⟩ := ih
    have hl : l.length < 4 := hl
    have he := target_chain hpt.2 hpage e
    refine ⟨rfl, ?_⟩
    rcases hg with ⟨rfl, rfl⟩ | ⟨rfl, rfl⟩ | ⟨rfl, rfl⟩ | ⟨rfl, rfl⟩ | ⟨rfl, -⟩
    · obtain ⟨rfl, rfl⟩ : i = 0 ∧ f = 2 := by omega
      exact .inr (.inl ⟨rfl, rfl⟩)
    · obtain ⟨rfl, rfl⟩ : i = 0 ∧ f = 3 := by omega
      exact .inr (.inr (.inl ⟨rfl, rfl⟩))
    · obtain ⟨rfl, rfl⟩ : i = 16 ∧ f = pt := by omega
      exact .inr (.inr (.inr (.inl ⟨rfl, rfl⟩)))
    · obtain ⟨rfl, e'⟩ : i = 0 ∧ page = some f := by
        rcases he with h | h | h | ⟨-, h⟩
        · omega
        · omega
        · omega
        · exact h
      exact .inr (.inr (.inr (.inr ⟨rfl, e'⟩)))
    · exact absurd hl (by decide)

theorem OnChain.slots {l' : List ℕ} (h : OnChain pt page l f) (h' : OnChain pt page l' f) (hpt : 3 < pt)
    (hpage : ∀ f, page = some f → 3 < f ∧ f ≠ pt) : l = l' := by
  have hf := hpage f
  rcases h with ⟨rfl, h⟩ | ⟨rfl, h⟩ | ⟨rfl, h⟩ | ⟨rfl, h⟩ | ⟨rfl, h⟩ <;>
    rcases h' with ⟨rfl, h'⟩ | ⟨rfl, h'⟩ | ⟨rfl, h'⟩ | ⟨rfl, h'⟩ | ⟨rfl, h'⟩ <;>
    first
    | rfl
    | omega
    | exact absurd (hf h) (by omega)
    | exact absurd (hf h') (by omega)

theorem userHalfOk_highMachine (hpt : 3 < pt ∧ pt < 2 ^ 28 + 8)
    (hpage : ∀ f, page = some f → (3 < f ∧ f ≠ pt) ∧ f < 2 ^ 28 + 8)
    (hused : ∀ l f, OnChain pt page l f → pmmGetFrame (highMachine bitmap pt page).pmm f = true) :
    UserHalfOk (highMachine bitmap pt page) := by
  have hnode {p : ℕ} {l : List ℕ} {f : ℕ} (hn : (highMachine bitmap pt page).half.Node p l f) :
      p = 1 ∧ OnChain pt page l f :=
    onChain ⟨hpt.1, by omega⟩ (fun f e => by have := hpage f e; omega) hn
  refine ⟨fun p l p' l' f hn hn' => ?_, fun p l f hn => hused l f (hnode hn).2, fun p l f hn => ?_,
    fun p l g i hn hl _ hp => ?_, fun f hf => ?_⟩
  · obtain ⟨rfl, h⟩ := hnode hn
    obtain ⟨rfl, h'⟩ := hnode hn'
    exact ⟨rfl, h.slots h' hpt.1 fun f e => (hpage f e).1⟩
  · show f < 2 ^ 28 + 8
    rcases (hnode hn).2 with ⟨-, h⟩ | ⟨-, h⟩ | ⟨-, h⟩ | ⟨-, h⟩ | ⟨-, h⟩
    · omega
    · omega
    · omega
    · omega
    · exact (hpage f h).2
  · show (chain pt page g i).hugePage = false
    unfold chain
    split_ifs
    · rfl
    · rfl
    · rfl
    · cases page with
      | none => rfl
      | some f => rfl
    · rfl
  · have hf : f < 2 ^ 28 + 8 := hf
    show (f * 4096 + 0xffff800000000000) % 2 ^ 64 ≠ 0
    omega

end

/-- All frames are in use, and the page at 0x2000000 is in frame `2 ^ 28 + 1`. -/
def highPage : Vmm := highMachine (fun _ => 0xff) 4 (some 0x10000001)

/-- **A page in frame `2 ^ 28 + 1`** is looked up in frame 1. Unmapping it gives back that frame, which
is the PML4, and not its own. -/
theorem high_page_lost : UserHalfOk highPage ∧
    view highPage 0x2000 = some (0x10000001, (PageEntry.ofFlags 7).flags) ∧
    vmmVirtToPhys highPage 0x2000000 = 0x1000 ∧ (vmmUnmapPage highPage 0x2000000).1 = true ∧
    pmmGetFrame (vmmUnmapPage highPage 0x2000000).2.pmm 1 = false ∧
    pmmGetFrame (vmmUnmapPage highPage 0x2000000).2.pmm 0x10000001 = true ∧
    ¬ Refines highPage 0x2000000 := by
  have hview : view highPage 0x2000 = some (0x10000001, (PageEntry.ofFlags 7).flags) := by
    decide +kernel
  have hphys : vmmVirtToPhys highPage 0x2000000 = 0x1000 := by decide +kernel
  have hok : UserHalfOk highPage := by
    refine userHalfOk_highMachine (by omega) (fun f e => ?_) fun _ _ _ => getFrame_full rfl
    cases e
    omega
  refine ⟨hok, hview, hphys, by decide +kernel, by decide +kernel, by decide +kernel, fun h => ?_⟩
  have hbound := h.virtToPhys
  rw [hphys, show 0x2000000 / 4096 = 0x2000 by decide, hview] at hbound
  exact absurd hbound (by decide)

end EitanOS
