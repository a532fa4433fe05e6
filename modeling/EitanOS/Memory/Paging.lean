import EitanOS.Memory.Frames

/-!
# Page tables (`vmm.c`)

A physical frame as a page table is its 512 entries. The code reaches a frame through the direct map
(`hhdm_offset`); here a pointer to a table is the number of its frame, and `hhdm` is its address.

The three steps of `vmm_map_page` from one table to the next are one function, `nextTable`, and so
are those of `vmm_edit_page` and `vmm_unmap_page`, `walkTable`. The processor follows entries by all 40
bits of `physical_addr` (`leadsTo`, `translate`); the code shifts them, and gets to another frame from
frame `2 ^ 28` on (`PageEntry.frame`).

* `walkTable_eq`: the two agree on an entry that leads to a frame below `2 ^ 28`.
-/

namespace EitanOS

/-- `page_entry_t`. -/
structure PageEntry where
  present : Bool
  writeable : Bool
  userAccessible : Bool
  writeThrough : Bool
  cacheDisabled : Bool
  accessed : Bool
  dirty : Bool
  hugePage : Bool
  global : Bool
  ignored1 : BitVec 3
  physicalAddr : BitVec 40
  ignored2 : BitVec 11
  noExecute : Bool
deriving DecidableEq

/-- The entry with the bits of a 64-bit word, as `memcpy` from `flags` leaves it. -/
def PageEntry.ofFlags (flags : ℕ) : PageEntry where
  present := flags.testBit 0
  writeable := flags.testBit 1
  userAccessible := flags.testBit 2
  writeThrough := flags.testBit 3
  cacheDisabled := flags.testBit 4
  accessed := flags.testBit 5
  dirty := flags.testBit 6
  hugePage := flags.testBit 7
  global := flags.testBit 8
  ignored1 := .ofNat 3 (flags / 2 ^ 9)
  physicalAddr := .ofNat 40 (flags / 2 ^ 12)
  ignored2 := .ofNat 11 (flags / 2 ^ 52)
  noExecute := flags.testBit 63

/-- `memcpy(&entry, &flags, sizeof(page_entry_t)); entry.physical_addr = addr`. -/
def PageEntry.make (flags addr : ℕ) : PageEntry :=
  { PageEntry.ofFlags flags with physicalAddr := .ofNat 40 addr }

/-- The frame a present entry points to, for the processor. -/
def PageEntry.target (e : PageEntry) : Option ℕ :=
  if e.present then some e.physicalAddr.toNat else none

/-- The frame of `physical_addr << 12`. The shift of a field of 40 bits has 40 bits, so the code loses
the upper bits of the frame. -/
def PageEntry.frame (e : PageEntry) : ℕ := (e.physicalAddr <<< 12).toNat / 4096

/-- `VMM_FLAGS_TABLE`. -/
def vmmFlagsTable : ℕ := 7

/-- The state of the memory managers and of the frames they use as page tables: `current_PML4`,
`hhdm_offset`, and entry `i` of frame `f` as a table, `frames f i`. -/
structure Vmm where
  pmm : Pmm
  frames : ℕ → ℕ → PageEntry
  current : ℕ
  hhdmOffset : ℕ

/-- The address of a frame in the direct map. -/
def Vmm.hhdm (s : Vmm) (frame : ℕ) : ℕ := (frame * 4096 + s.hhdmOffset) % 2 ^ 64

/-- Write one entry of a table. -/
def Vmm.setEntry (s : Vmm) (table index : ℕ) (e : PageEntry) : Vmm :=
  { s with frames := Function.update s.frames table (Function.update (s.frames table) index e) }

/-- `memset(table, 0, PAGE_SIZE)`. -/
def Vmm.zeroFrame (s : Vmm) (frame : ℕ) : Vmm :=
  { s with frames := Function.update s.frames frame fun _ => PageEntry.ofFlags 0 }

/-- `PML4_INDEX`, `PDPT_INDEX`, `PD_INDEX` and `PT_INDEX`, for level 4 to 1. -/
def tableIndex (level virt : ℕ) : ℕ := virt / 2 ^ (12 + 9 * (level - 1)) % 512

/-- `vmm_create_PML4`; `none` is `return false`. -/
def vmmCreatePML4 (s : Vmm) : Option ℕ × Vmm :=
  let (frame, pmm) := pmmAllocFrame s.pmm
  let s := { s with pmm := pmm }
  if s.hhdm frame = 0 then (none, s) else (some frame, s.zeroFrame frame)

/-- `vmm_copy_kernel_PML4`. -/
def vmmCopyKernelPML4 (s : Vmm) (dst src : ℕ) : Vmm :=
  { s with frames := Function.update s.frames dst fun i =>
      if 256 ≤ i ∧ i < 512 then s.frames src i else s.frames dst i }

/-- `vmm_set_PML4`. -/
def vmmSetPML4 (s : Vmm) (table : ℕ) : Vmm := { s with current := table }

/-! ## One page -/

/-- One level of `vmm_map_page`: the table an entry points to, made if it is not present. `none` as
the table is the `return false` after a failed allocation. -/
def nextTable (s : Vmm) (table index : ℕ) : Option ℕ × Vmm :=
  let e := s.frames table index
  if e.present then (some e.frame, s)
  else
    let (frame, pmm) := pmmAllocFrame s.pmm
    let s := { s with pmm := pmm }
    if s.hhdm frame = 0 then (none, s)
    else (some frame, (s.zeroFrame frame).setEntry table index (.make vmmFlagsTable frame))

/-- `vmm_map_page` once it has the page table. `phys` is an address. -/
def mapEntry (s : Vmm) (table virt phys flags : ℕ) : Bool × Vmm :=
  if (s.frames table (tableIndex 1 virt)).present then (false, s)
  else
    let (reserved, pmm) := reserveUnlessReserved s.pmm (phys / 4096)
    if reserved then
      (true, { s with pmm := pmm }.setEntry table (tableIndex 1 virt) (.make flags (phys / 4096)))
    else (false, s)

/-- Go on with the table, or `return false`. -/
def withTable (r : Option ℕ × Vmm) (next : ℕ → Vmm → Bool × Vmm) : Bool × Vmm :=
  match r with
  | (none, s) => (false, s)
  | (some table, s) => next table s

/-- `vmm_map_page`. -/
def vmmMapPage (s : Vmm) (virt phys flags : ℕ) : Bool × Vmm :=
  withTable (nextTable s s.current (tableIndex 4 virt)) fun pdpt s =>
    withTable (nextTable s pdpt (tableIndex 3 virt)) fun pd s =>
      withTable (nextTable s pd (tableIndex 2 virt)) fun pt s => mapEntry s pt virt phys flags

/-- One level of the walks that make no tables. -/
def walkTable (s : Vmm) (table index : ℕ) : Option ℕ :=
  let e := s.frames table index
  if e.present then some e.frame else none

/-- The page table for an address, as the code finds it. -/
def pageTable (s : Vmm) (virt : ℕ) : Option ℕ :=
  (walkTable s s.current (tableIndex 4 virt)).bind fun pdpt =>
    (walkTable s pdpt (tableIndex 3 virt)).bind fun pd => walkTable s pd (tableIndex 2 virt)

/-- One level of the walk of the processor. -/
def leadsTo (s : Vmm) (table index : ℕ) : Option ℕ := (s.frames table index).target

/-- The page table for an address in the address space of a PML4. -/
def tableOf (s : Vmm) (pml4 virt : ℕ) : Option ℕ :=
  (leadsTo s pml4 (tableIndex 4 virt)).bind fun pdpt =>
    (leadsTo s pdpt (tableIndex 3 virt)).bind fun pd => leadsTo s pd (tableIndex 2 virt)

/-- The frame an address is mapped to in the address space of a PML4. -/
def translate (s : Vmm) (pml4 virt : ℕ) : Option ℕ :=
  (tableOf s pml4 virt).bind fun pt => leadsTo s pt (tableIndex 1 virt)

/-- `vmm_edit_page`. `phys` is an address; for `null` the page keeps its frame. -/
def vmmEditPage (s : Vmm) (virt phys flags : ℕ) : Bool × Vmm :=
  match pageTable s virt with
  | none => (false, s)
  | some pt =>
    let e := s.frames pt (tableIndex 1 virt)
    if e.present then
      let s := if flags ≠ 0 then s.setEntry pt (tableIndex 1 virt) (.make flags e.frame) else s
      if phys ≠ 0 then
        let (reserved, pmm) :=
          reserveUnlessReserved (freeIfReserved s.pmm e.frame) (phys / 4096)
        let s := { s with pmm := pmm }
        if reserved then
          (true, s.setEntry pt (tableIndex 1 virt)
            { s.frames pt (tableIndex 1 virt) with physicalAddr := .ofNat 40 (phys / 4096) })
        else (false, s)
      else (true, s)
    else (false, s)

/-- `vmm_unmap_page`. -/
def vmmUnmapPage (s : Vmm) (virt : ℕ) : Bool × Vmm :=
  match pageTable s virt with
  | none => (false, s)
  | some pt =>
    let e := s.frames pt (tableIndex 1 virt)
    if e.present then
      let s := s.setEntry pt (tableIndex 1 virt) { e with present := false }
      (true, { s with pmm := freeIfReserved s.pmm e.frame })
    else (false, s)

/-- `vmm_is_mapped`. -/
def vmmIsMapped (s : Vmm) (virt : ℕ) : Bool :=
  match pageTable s virt with
  | none => false
  | some pt => (s.frames pt (tableIndex 1 virt)).present

/-- `vmm_virt_to_phys`; `0` is `null`. -/
def vmmVirtToPhys (s : Vmm) (virt : ℕ) : ℕ :=
  match pageTable s virt with
  | none => 0
  | some pt =>
    let e := s.frames pt (tableIndex 1 virt)
    if e.present then
      let phys := e.frame * 4096
      if pmmIsReserved s.pmm (phys / 4096) then phys else 0
    else 0

/-! ## Reading after writing -/

theorem frames_setEntry (s : Vmm) (g i g' i' : ℕ) (e : PageEntry) :
    (s.setEntry g i e).frames g' i' = if g' = g ∧ i' = i then e else s.frames g' i' := by
  unfold Vmm.setEntry
  dsimp only
  by_cases hg : g' = g
  · subst hg
    rw [Function.update_self]
    by_cases hi : i' = i
    · rw [hi, Function.update_self, if_pos ⟨rfl, rfl⟩]
    · rw [Function.update_of_ne hi, if_neg fun h => hi h.2]
  · rw [Function.update_of_ne hg, if_neg fun h => hg h.1]

theorem frames_zeroFrame (s : Vmm) (n g i : ℕ) :
    (s.zeroFrame n).frames g i = if g = n then PageEntry.ofFlags 0 else s.frames g i := by
  unfold Vmm.zeroFrame
  dsimp only
  by_cases hg : g = n
  · rw [hg, Function.update_self, if_pos rfl]
  · rw [Function.update_of_ne hg, if_neg hg]

theorem frames_copyKernelPML4 (s : Vmm) (dst src g i : ℕ) :
    (vmmCopyKernelPML4 s dst src).frames g i =
      if g = dst ∧ 256 ≤ i ∧ i < 512 then s.frames src i else s.frames g i := by
  unfold vmmCopyKernelPML4
  dsimp only
  by_cases hg : g = dst
  · subst hg
    rw [Function.update_self]
    by_cases hi : 256 ≤ i ∧ i < 512
    · rw [if_pos hi, if_pos ⟨rfl, hi⟩]
    · rw [if_neg hi, if_neg fun h => hi h.2]
  · rw [Function.update_of_ne hg, if_neg fun h => hg h.1]

@[simp] theorem setEntry_pmm (s : Vmm) (g i : ℕ) (e : PageEntry) : (s.setEntry g i e).pmm = s.pmm := rfl

@[simp] theorem setEntry_current (s : Vmm) (g i : ℕ) (e : PageEntry) :
    (s.setEntry g i e).current = s.current := rfl

@[simp] theorem zeroFrame_current (s : Vmm) (n : ℕ) : (s.zeroFrame n).current = s.current := rfl

theorem frame_eq (e : PageEntry) : e.frame = e.physicalAddr.toNat % 2 ^ 28 := by
  unfold PageEntry.frame
  rw [BitVec.toNat_shiftLeft, Nat.shiftLeft_eq]
  omega

theorem frame_lt (e : PageEntry) : e.frame < 2 ^ 28 := by
  rw [frame_eq]
  exact Nat.mod_lt _ (by decide)

theorem frame_of_lt {e : PageEntry} (h : e.physicalAddr.toNat < 2 ^ 28) :
    e.frame = e.physicalAddr.toNat := by
  rw [frame_eq, Nat.mod_eq_of_lt h]

theorem walkTable_eq {s : Vmm} {g i : ℕ} (h : ∀ f, leadsTo s g i = some f → f < 2 ^ 28) :
    walkTable s g i = leadsTo s g i := by
  unfold walkTable leadsTo PageEntry.target at *
  dsimp only
  by_cases hp : (s.frames g i).present
  · rw [if_pos hp, if_pos hp, frame_of_lt (h _ (if_pos hp))]
  · rw [if_neg hp, if_neg hp]

theorem walkTable_of_leadsTo {s : Vmm} {g i f : ℕ} (h : leadsTo s g i = some f) (hf : f < 2 ^ 28) :
    walkTable s g i = some f := by
  rw [walkTable_eq fun f' e => ?_, h]
  rwa [← Option.some.inj (h.symm.trans e)]

/-- The page tables for an address in the address space of a PML4 are in frames below `2 ^ 28`. -/
def LowWalk (s : Vmm) (pml4 virt : ℕ) : Prop :=
  ∀ pdpt, leadsTo s pml4 (tableIndex 4 virt) = some pdpt → pdpt < 2 ^ 28 ∧
    ∀ pd, leadsTo s pdpt (tableIndex 3 virt) = some pd → pd < 2 ^ 28 ∧
      ∀ pt, leadsTo s pd (tableIndex 2 virt) = some pt → pt < 2 ^ 28

/-- **The code finds the page table of the processor.** -/
theorem LowWalk.pageTable_eq {s : Vmm} {virt : ℕ} (h : LowWalk s s.current virt) :
    pageTable s virt = tableOf s s.current virt := by
  unfold pageTable tableOf
  rw [walkTable_eq fun pdpt e₄ => (h pdpt e₄).1]
  refine Option.bind_congr fun pdpt e₄ => ?_
  obtain ⟨-, h⟩ := h pdpt e₄
  rw [walkTable_eq fun pd e₃ => (h pd e₃).1]
  refine Option.bind_congr fun pd e₃ => ?_
  exact walkTable_eq (h pd e₃).2

theorem target_make {flags addr : ℕ} (hf : flags.testBit 0 = true) (ha : addr < 2 ^ 40) :
    (PageEntry.make flags addr).target = some addr := by
  unfold PageEntry.target PageEntry.make PageEntry.ofFlags
  dsimp only
  rw [if_pos hf, BitVec.toNat_ofNat, Nat.mod_eq_of_lt ha]

theorem nextTable_outOfLowFrames {s : Vmm} {g i : ℕ}
    (h : (nextTable s g i).2.pmm.outOfLowFrames = false) : s.pmm.outOfLowFrames = false := by
  unfold nextTable at h
  dsimp only at h
  split_ifs at h
  · exact h
  · exact (pmmAllocFrame_spec h).1
  · exact (pmmAllocFrame_spec h).1

/-- What comes after a level of `vmm_map_page` does not undo a failed allocation. -/
def KeepsOut (next : ℕ → Vmm → Bool × Vmm) : Prop :=
  ∀ t s, (next t s).2.pmm.outOfLowFrames = false → s.pmm.outOfLowFrames = false

theorem withTable_outOfLowFrames {s : Vmm} {g i : ℕ} {next : ℕ → Vmm → Bool × Vmm}
    (hnext : KeepsOut next) (h : (withTable (nextTable s g i) next).2.pmm.outOfLowFrames = false) :
    (nextTable s g i).2.pmm.outOfLowFrames = false := by
  rcases e : nextTable s g i with ⟨_ | t, s'⟩
  · rw [e] at h
    exact h
  · rw [e] at h
    exact hnext t s' h

theorem keepsOut_withTable {next : ℕ → Vmm → Bool × Vmm} (h : KeepsOut next) (index : ℕ) :
    KeepsOut fun t s => withTable (nextTable s t index) next :=
  fun _ _ ho => nextTable_outOfLowFrames (withTable_outOfLowFrames h ho)

theorem keepsOut_mapEntry (virt phys flags : ℕ) :
    KeepsOut fun pt s => mapEntry s pt virt phys flags := by
  intro pt s h
  dsimp only at h
  unfold mapEntry at h
  dsimp only at h
  split_ifs at h
  · exact h
  · rw [setEntry_pmm, reserveUnlessReserved_outOfLowFrames] at h
    exact h
  · exact h

theorem vmmMapPage_outOfLowFrames {s : Vmm} {virt phys flags : ℕ}
    (h : (vmmMapPage s virt phys flags).2.pmm.outOfLowFrames = false) : s.pmm.outOfLowFrames = false :=
  keepsOut_withTable (keepsOut_withTable (keepsOut_withTable
    (keepsOut_mapEntry virt phys flags) _) _) _ s.current s h

theorem tableIndex_lt (level virt : ℕ) : tableIndex level virt < 512 := Nat.mod_lt _ (by decide)

theorem tableIndex_four_lt {virt : ℕ} (h : virt < 2 ^ 47) : tableIndex 4 virt < 256 := by
  unfold tableIndex
  omega

/-! ## Ranges -/

/-- `amount` in `vmm_alloc` and its siblings; the difference wraps around for `end_virt` below
`start_virt`. -/
def pageAmount (startVirt endVirt : ℕ) : ℕ :=
  if startVirt / 4096 ≤ endVirt / 4096 then endVirt / 4096 - startVirt / 4096 + 1
  else (2 ^ 64 + endVirt / 4096 + 1 - startVirt / 4096) % 2 ^ 64

/-- `start_virt + i * PAGE_SIZE`. -/
def pageAt (startVirt i : ℕ) : ℕ := (startVirt + i * 4096) % 2 ^ 64

/-- The loop of `vmm_edit_pages`, for `n` pages from page `i` on. -/
def editLoop (s : Vmm) (startVirt flags : ℕ) : ℕ → ℕ → Bool → Bool × Vmm
  | 0, _, success => (success, s)
  | n + 1, i, success =>
    let (b, s) := vmmEditPage s (pageAt startVirt i) 0 flags
    editLoop s startVirt flags n (i + 1) (success && b)

/-- `vmm_edit_pages`. -/
def vmmEditPages (s : Vmm) (startVirt endVirt flags : ℕ) : Bool × Vmm :=
  editLoop s startVirt flags (pageAmount startVirt endVirt) 0 true

/-- Unmap `n` pages from page `i` on. -/
def unmapLoop (s : Vmm) (startVirt : ℕ) : ℕ → ℕ → Vmm
  | 0, _ => s
  | n + 1, i => unmapLoop (vmmUnmapPage s (pageAt startVirt i)).2 startVirt n (i + 1)

/-- `vmm_free`. -/
def vmmFree (s : Vmm) (startVirt endVirt : ℕ) : Vmm :=
  unmapLoop s startVirt (pageAmount startVirt endVirt) 0

/-- The first loop of `vmm_alloc`, for `n` pages from page `i` on: `failed_i`, if it has failed. -/
def allocLoop (s : Vmm) (startVirt flags : ℕ) : ℕ → ℕ → Option ℕ × Vmm
  | 0, _ => (none, s)
  | n + 1, i =>
    let (frame, pmm) := pmmAllocFrame s.pmm
    let s := { s with pmm := pmm }
    if frame = 0 then (some i, s)
    else
      let (success, s) := vmmMapPage s (pageAt startVirt i) (frame * 4096) flags
      if success then allocLoop s startVirt flags n (i + 1)
      else (some i, { s with pmm := pmmFreeFrame s.pmm frame })

/-- `vmm_alloc` for `amount` pages. -/
def allocPages (s : Vmm) (startVirt flags amount : ℕ) : Bool × Vmm :=
  match allocLoop s startVirt flags amount 0 with
  | (none, s) => (true, s)
  | (some failed, s) => (false, unmapLoop s startVirt failed 0)

/-- `vmm_alloc`. -/
def vmmAlloc (s : Vmm) (startVirt endVirt flags : ℕ) : Bool × Vmm :=
  allocPages s startVirt flags (pageAmount startVirt endVirt)

/-! ## Allocations that succeed -/

theorem withTable_some (t : ℕ) (s : Vmm) (next : ℕ → Vmm → Bool × Vmm) :
    withTable (some t, s) next = next t s := rfl

theorem vmmCreatePML4_new {s : Vmm} {f : ℕ} {p : Pmm} (hp : pmmAllocFrame s.pmm = (f, p))
    (hf : { s with pmm := p }.hhdm f ≠ 0) :
    vmmCreatePML4 s = (some f, { s with pmm := p }.zeroFrame f) := by
  unfold vmmCreatePML4
  rw [hp]
  exact if_neg hf

theorem nextTable_new {s : Vmm} {g i f : ℕ} {p : Pmm} (h : (s.frames g i).present = false)
    (hp : pmmAllocFrame s.pmm = (f, p)) (hf : { s with pmm := p }.hhdm f ≠ 0) :
    nextTable s g i =
      (some f, ({ s with pmm := p }.zeroFrame f).setEntry g i (.make vmmFlagsTable f)) := by
  unfold nextTable
  dsimp only
  rw [if_neg (by rw [h]; exact Bool.false_ne_true), hp]
  exact if_neg hf

theorem mapEntry_reserved {s : Vmm} {t virt phys flags : ℕ}
    (h : (s.frames t (tableIndex 1 virt)).present = false) (hr : pmmGetFrame s.pmm (phys / 4096) = true) :
    mapEntry s t virt phys flags =
      (true, s.setEntry t (tableIndex 1 virt) (.make flags (phys / 4096))) := by
  have hres : reserveUnlessReserved s.pmm (phys / 4096) = (true, s.pmm) := if_pos hr
  unfold mapEntry
  rw [if_neg (by rw [h]; exact Bool.false_ne_true), hres]
  rfl

theorem vmmAlloc_page {s s' : Vmm} {a b flags f : ℕ} {p : Pmm} (hn : pageAmount a b = 1)
    (hp : pmmAllocFrame s.pmm = (f, p)) (hf : f ≠ 0)
    (hmap : vmmMapPage { s with pmm := p } (pageAt a 0) (f * 4096) flags = (true, s')) :
    vmmAlloc s a b flags = (true, s') := by
  have hloop : allocLoop s a flags 1 0 = (none, s') := by
    unfold allocLoop
    rw [hp]
    dsimp only
    rw [if_neg hf, hmap]
    rfl
  unfold vmmAlloc allocPages
  rw [hn, hloop]

/-! ## Allocations that fail -/

@[simp] theorem vmmUnmapPage_outOfLowFrames (s : Vmm) (virt : ℕ) :
    (vmmUnmapPage s virt).2.pmm.outOfLowFrames = s.pmm.outOfLowFrames := by
  unfold vmmUnmapPage
  cases pageTable s virt with
  | none => rfl
  | some pt =>
    dsimp only
    split_ifs
    · exact freeIfReserved_outOfLowFrames
    · rfl

@[simp] theorem unmapLoop_outOfLowFrames (s : Vmm) (startVirt n i : ℕ) :
    (unmapLoop s startVirt n i).pmm.outOfLowFrames = s.pmm.outOfLowFrames := by
  induction n generalizing s i with
  | zero => rfl
  | succ n ih => rw [unmapLoop, ih, vmmUnmapPage_outOfLowFrames]

@[simp] theorem vmmEditPage_pmm (s : Vmm) (virt flags : ℕ) :
    (vmmEditPage s virt 0 flags).2.pmm = s.pmm := by
  unfold vmmEditPage
  cases pageTable s virt with
  | none => rfl
  | some pt =>
    simp only [ne_eq, not_true_eq_false, if_false]
    split_ifs
    · rfl
    · rfl
    · rfl

@[simp] theorem editLoop_pmm (s : Vmm) (startVirt flags n i : ℕ) (success : Bool) :
    (editLoop s startVirt flags n i success).2.pmm = s.pmm := by
  induction n generalizing s i success with
  | zero => rfl
  | succ n ih => rw [editLoop, ih, vmmEditPage_pmm]

theorem allocLoop_outOfLowFrames {s : Vmm} {startVirt flags n i : ℕ}
    (h : (allocLoop s startVirt flags n i).2.pmm.outOfLowFrames = false) :
    s.pmm.outOfLowFrames = false := by
  induction n generalizing s i with
  | zero => exact h
  | succ n ih =>
    rw [allocLoop] at h
    dsimp only at h
    split_ifs at h
    · exact (pmmAllocFrame_spec h).1
    · exact (pmmAllocFrame_spec (vmmMapPage_outOfLowFrames (ih h))).1
    · exact (pmmAllocFrame_spec (vmmMapPage_outOfLowFrames h)).1

/-! ## The address space in use -/

/-- `current_PML4` and `hhdm_offset` are the same. -/
structure SameSpace (s s' : Vmm) : Prop where
  current : s'.current = s.current
  hhdmOffset : s'.hhdmOffset = s.hhdmOffset

theorem hhdm_congr {s s' : Vmm} (h : s'.hhdmOffset = s.hhdmOffset) (f : ℕ) : s'.hhdm f = s.hhdm f := by
  unfold Vmm.hhdm
  rw [h]

theorem SameSpace.refl (s : Vmm) : SameSpace s s := ⟨rfl, rfl⟩

theorem SameSpace.trans {s s' s'' : Vmm} (h : SameSpace s s') (h' : SameSpace s' s'') :
    SameSpace s s'' :=
  ⟨h'.current.trans h.current, h'.hhdmOffset.trans h.hhdmOffset⟩

theorem sameSpace_nextTable (s : Vmm) (g i : ℕ) : SameSpace s (nextTable s g i).2 := by
  unfold nextTable
  dsimp only
  split_ifs
  · exact ⟨rfl, rfl⟩
  · exact ⟨rfl, rfl⟩
  · exact ⟨rfl, rfl⟩

theorem sameSpace_withTable {s : Vmm} {g i : ℕ} {next : ℕ → Vmm → Bool × Vmm}
    (h : ∀ t s', SameSpace s' (next t s').2) : SameSpace s (withTable (nextTable s g i) next).2 := by
  have hs := sameSpace_nextTable s g i
  generalize nextTable s g i = r at hs ⊢
  obtain ⟨_ | t, s'⟩ := r
  · exact hs
  · exact hs.trans (h t s')

theorem sameSpace_mapEntry (s : Vmm) (table virt phys flags : ℕ) :
    SameSpace s (mapEntry s table virt phys flags).2 := by
  unfold mapEntry
  dsimp only
  split_ifs
  · exact ⟨rfl, rfl⟩
  · exact ⟨rfl, rfl⟩
  · exact ⟨rfl, rfl⟩

theorem sameSpace_vmmMapPage (s : Vmm) (virt phys flags : ℕ) :
    SameSpace s (vmmMapPage s virt phys flags).2 := by
  refine sameSpace_withTable fun pdpt s₁ => ?_
  refine sameSpace_withTable fun pd s₂ => ?_
  exact sameSpace_withTable fun pt s₃ => sameSpace_mapEntry _ _ _ _ _

theorem sameSpace_vmmEditPage (s : Vmm) (virt flags : ℕ) :
    SameSpace s (vmmEditPage s virt 0 flags).2 := by
  unfold vmmEditPage
  cases pageTable s virt with
  | none => exact ⟨rfl, rfl⟩
  | some pt =>
    dsimp only
    rw [if_neg (not_not.2 rfl)]
    split_ifs
    · exact ⟨rfl, rfl⟩
    · exact ⟨rfl, rfl⟩
    · exact ⟨rfl, rfl⟩

theorem sameSpace_vmmUnmapPage (s : Vmm) (virt : ℕ) : SameSpace s (vmmUnmapPage s virt).2 := by
  unfold vmmUnmapPage
  cases pageTable s virt with
  | none => exact ⟨rfl, rfl⟩
  | some pt =>
    dsimp only
    split_ifs
    · exact ⟨rfl, rfl⟩
    · exact ⟨rfl, rfl⟩

theorem sameSpace_unmapLoop (s : Vmm) (startVirt n i : ℕ) :
    SameSpace s (unmapLoop s startVirt n i) := by
  induction n generalizing s i with
  | zero => exact .refl s
  | succ n ih => exact (sameSpace_vmmUnmapPage _ _).trans (ih _ _)

theorem sameSpace_editLoop (s : Vmm) (startVirt flags n i : ℕ) (success : Bool) :
    SameSpace s (editLoop s startVirt flags n i success).2 := by
  induction n generalizing s i success with
  | zero => exact .refl s
  | succ n ih => exact (sameSpace_vmmEditPage _ _ _).trans (ih _ _ _)

theorem sameSpace_allocLoop (s : Vmm) (startVirt flags n i : ℕ) :
    SameSpace s (allocLoop s startVirt flags n i).2 := by
  induction n generalizing s i with
  | zero => exact .refl s
  | succ n ih =>
    rw [allocLoop]
    dsimp only
    have hmap := sameSpace_vmmMapPage { s with pmm := (pmmAllocFrame s.pmm).2 } (pageAt startVirt i)
      ((pmmAllocFrame s.pmm).1 * 4096) flags
    split_ifs
    · exact ⟨rfl, rfl⟩
    · exact SameSpace.trans ⟨hmap.current, hmap.hhdmOffset⟩ (ih _ _)
    · exact ⟨hmap.current, hmap.hhdmOffset⟩

theorem sameSpace_vmmAlloc (s : Vmm) (startVirt endVirt flags : ℕ) :
    SameSpace s (vmmAlloc s startVirt endVirt flags).2 := by
  have h := sameSpace_allocLoop s startVirt flags (pageAmount startVirt endVirt) 0
  unfold vmmAlloc allocPages
  generalize allocLoop s startVirt flags (pageAmount startVirt endVirt) 0 = r at h ⊢
  obtain ⟨_ | failed, s'⟩ := r
  · exact h
  · exact h.trans (sameSpace_unmapLoop _ _ _ _)

/-! ## Ranges of the user half -/

/-- A range inside the user half. -/
structure UserRange (startVirt endVirt : ℕ) : Prop where
  le : startVirt ≤ endVirt
  lt : endVirt < 2 ^ 47

theorem UserRange.pageAt_lt {startVirt endVirt i : ℕ} (h : UserRange startVirt endVirt)
    (hi : i < pageAmount startVirt endVirt) : pageAt startVirt i < 2 ^ 47 := by
  have h₁ := h.le
  have h₂ := h.lt
  have hle := Nat.div_le_div_right (c := 4096) h₁
  rw [pageAmount, if_pos hle] at hi
  unfold pageAt
  omega

theorem page_eq_of_tableIndex {virt virt' : ℕ} (h : virt < 2 ^ 47) (h' : virt' < 2 ^ 47)
    (e₁ : tableIndex 1 virt = tableIndex 1 virt') (e₂ : tableIndex 2 virt = tableIndex 2 virt')
    (e₃ : tableIndex 3 virt = tableIndex 3 virt') (e₄ : tableIndex 4 virt = tableIndex 4 virt') :
    virt / 4096 = virt' / 4096 := by
  unfold tableIndex at e₁ e₂ e₃ e₄
  norm_num at e₁ e₂ e₃ e₄
  omega

end EitanOS
