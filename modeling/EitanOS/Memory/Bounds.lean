import EitanOS.Memory.BootFrames
import EitanOS.Memory.Entries

/-!
# The frames that the bitmap is asked about

`pmm_get_frame` and `pmm_set_frame` do not compare the frame with `total_frames`. For each function the
frames it gives to them, in order, are its trace.

* `EntriesIn`: all entries lead to frames that the bitmap has a bit for. `VmmCall.PhysIn`: so does the
  address that is passed to a call. Every such call keeps the entries in bounds.
* **`bitmap_in_bounds`**: when all frames are in bounds, at boot and in every run of calls after it.
* **`bitmap_overrun`**: two memory maps with which they are not.
-/

namespace EitanOS

/-! ## The traces -/

/-- The frames from `start` to `stop`, as the loops of `pmm_init` and `pmm_free_region` run through
them. -/
def regionTrace (start stop : ℕ) : List ℕ :=
  List.range' (start / 4096) (stop / 4096 + 1 - start / 4096)

/-- `pmm_init`, from step 4 on. -/
def pmmInitTrace (es : List MemmapEntry) : List ℕ :=
  match placeBitmap (bitmapSize es) es with
  | none => []
  | some (bitmapPhys, es') =>
    (es'.flatMap fun e => if e.type = .usable then regionTrace e.base e.limit else []) ++
      regionTrace bitmapPhys (bitmapPhys + bitmapSize es)

/-- `pmm_alloc_frame`. -/
def pmmAllocFrameTrace (m : Pmm) : List ℕ :=
  match (List.range m.totalFrames).find? fun i => !pmmGetFrame m i with
  | none => List.range m.totalFrames
  | some i => List.range (i + 1) ++ [i]

/-- `if (!pmm_is_reserved(addr)) pmm_reserve_frame(addr)`. -/
def reserveUnlessReservedTrace (m : Pmm) (frame : ℕ) : List ℕ :=
  if pmmIsReserved m frame then [frame] else [frame, frame, frame]

/-- `if (pmm_is_reserved(addr)) pmm_free_frame(addr)`. -/
def freeIfReservedTrace (m : Pmm) (frame : ℕ) : List ℕ :=
  if pmmIsReserved m frame then [frame, frame] else [frame]

/-- One level of `vmm_map_page`, and what comes after it. -/
def levelTrace (s : Vmm) (table index : ℕ) (next : ℕ → Vmm → List ℕ) : List ℕ :=
  (if (s.frames table index).present then [] else pmmAllocFrameTrace s.pmm) ++
    match nextTable s table index with
    | (none, _) => []
    | (some t, s') => next t s'

/-- `vmm_map_page` once it has the page table. -/
def mapEntryTrace (s : Vmm) (table virt phys : ℕ) : List ℕ :=
  if (s.frames table (tableIndex 1 virt)).present then []
  else reserveUnlessReservedTrace s.pmm (phys / 4096)

/-- `vmm_map_page`. -/
def vmmMapPageTrace (s : Vmm) (virt phys : ℕ) : List ℕ :=
  levelTrace s s.current (tableIndex 4 virt) fun pdpt s =>
    levelTrace s pdpt (tableIndex 3 virt) fun pd s =>
      levelTrace s pd (tableIndex 2 virt) fun pt s => mapEntryTrace s pt virt phys

/-- `vmm_edit_page`. -/
def vmmEditPageTrace (s : Vmm) (virt phys : ℕ) : List ℕ :=
  match pageTable s virt with
  | none => []
  | some pt =>
    let e := s.frames pt (tableIndex 1 virt)
    if e.present ∧ phys ≠ 0 then
      freeIfReservedTrace s.pmm e.frame ++
        reserveUnlessReservedTrace (freeIfReserved s.pmm e.frame) (phys / 4096)
    else []

/-- `vmm_unmap_page`. -/
def vmmUnmapPageTrace (s : Vmm) (virt : ℕ) : List ℕ :=
  match pageTable s virt with
  | none => []
  | some pt =>
    let e := s.frames pt (tableIndex 1 virt)
    if e.present then freeIfReservedTrace s.pmm e.frame else []

/-- The loop that unmaps `n` pages from page `i` on. -/
def unmapLoopTrace (s : Vmm) (startVirt : ℕ) : ℕ → ℕ → List ℕ
  | 0, _ => []
  | n + 1, i =>
    vmmUnmapPageTrace s (pageAt startVirt i) ++
      unmapLoopTrace (vmmUnmapPage s (pageAt startVirt i)).2 startVirt n (i + 1)

/-- The first loop of `vmm_alloc`, for `n` pages from page `i` on. -/
def allocLoopTrace (s : Vmm) (startVirt flags : ℕ) : ℕ → ℕ → List ℕ
  | 0, _ => []
  | n + 1, i =>
    let (frame, pmm) := pmmAllocFrame s.pmm
    let s₁ := { s with pmm := pmm }
    pmmAllocFrameTrace s.pmm ++
      if frame = 0 then []
      else
        let (success, s₂) := vmmMapPage s₁ (pageAt startVirt i) (frame * 4096) flags
        vmmMapPageTrace s₁ (pageAt startVirt i) (frame * 4096) ++
          if success then allocLoopTrace s₂ startVirt flags n (i + 1) else [frame]

/-- `vmm_alloc`. -/
def vmmAllocTrace (s : Vmm) (startVirt endVirt flags : ℕ) : List ℕ :=
  let amount := pageAmount startVirt endVirt
  allocLoopTrace s startVirt flags amount 0 ++
    match allocLoop s startVirt flags amount 0 with
    | (none, _) => []
    | (some failed, s') => unmapLoopTrace s' startVirt failed 0

/-! ## Runs -/

/-- The calls that reach the bitmap. -/
inductive VmmCall
  | map (virt phys flags : ℕ)
  | unmap (virt : ℕ)
  | edit (virt phys flags : ℕ)
  | alloc (startVirt endVirt flags : ℕ)

/-- The state after a call. -/
def VmmCall.run (s : Vmm) : VmmCall → Vmm
  | .map virt phys flags => (vmmMapPage s virt phys flags).2
  | .unmap virt => (vmmUnmapPage s virt).2
  | .edit virt phys flags => (vmmEditPage s virt phys flags).2
  | .alloc startVirt endVirt flags => (vmmAlloc s startVirt endVirt flags).2

/-- The trace of a call. -/
def VmmCall.trace (s : Vmm) : VmmCall → List ℕ
  | .map virt phys _ => vmmMapPageTrace s virt phys
  | .unmap virt => vmmUnmapPageTrace s virt
  | .edit virt phys _ => vmmEditPageTrace s virt phys
  | .alloc startVirt endVirt flags => vmmAllocTrace s startVirt endVirt flags

/-- The trace of a sequence of calls. -/
def runTrace (s : Vmm) : List VmmCall → List ℕ
  | [] => []
  | c :: cs => c.trace s ++ runTrace (c.run s) cs

/-- The pages that `interrupts_init` maps: `LAPIC_BASE` and `IOAPIC_BASE`, with `VMM_FLAGS_MMIO`. -/
def interruptsInitCalls : List VmmCall :=
  [.map 0xFFFFFFFFC0000000 0xFEE00000 (2 ^ 0 ||| 2 ^ 1 ||| 2 ^ 4 ||| 2 ^ 63),
    .map 0xFFFFFFFFC0001000 0xFEC00000 (2 ^ 0 ||| 2 ^ 1 ||| 2 ^ 4 ||| 2 ^ 63)]

variable {s s' : Vmm} {m : Pmm} {size f g t i n x virt phys flags startVirt : ℕ}

@[simp] theorem mem_reserveUnlessReservedTrace : f ∈ reserveUnlessReservedTrace m n ↔ f = n := by
  unfold reserveUnlessReservedTrace
  split_ifs <;> simp

@[simp] theorem mem_freeIfReservedTrace : f ∈ freeIfReservedTrace m n ↔ f = n := by
  unfold freeIfReservedTrace
  split_ifs <;> simp

/-! ## Where the entries lead -/

/-- A bitmap of `size` bytes has a bit for the physical address that is passed to the call. -/
def VmmCall.PhysIn (size : ℕ) : VmmCall → Prop
  | .map _ phys _ | .edit _ phys _ => phys / 4096 / 8 < size
  | .unmap _ | .alloc _ _ _ => True

/-- A bitmap of `size` bytes has a bit for the frame. -/
def boundsRule (size : ℕ) : EntryRule where
  frame f := f / 8 < size
  entry e := e.frame / 8 < size
  make e f hf := by
    have h₁ := Nat.mod_le f (2 ^ 40)
    have h₂ := Nat.mod_le (f % 2 ^ 40) (2 ^ 28)
    rw [frame_eq, BitVec.toNat_ofNat]
    omega
  find _ he := he

/-- A bitmap of `size` bytes has a bit for frame 0, for every frame of the machine and for every frame
that an entry leads to. -/
abbrev EntriesIn (size : ℕ) (s : Vmm) : Prop := (boundsRule size).Holds s

/-- **Every call** to which only addresses in bounds are passed keeps the entries in bounds. -/
theorem EntriesIn.run (h : EntriesIn size s) {c : VmmCall} (hc : c.PhysIn size) :
    EntriesIn size (c.run s) := by
  cases c with
  | map virt phys flags => exact h.vmmMapPage hc
  | unmap virt => exact h.vmmUnmapPage virt
  | edit virt phys flags => exact h.vmmEditPage fun _ => hc
  | alloc startVirt endVirt flags => exact h.vmmAlloc _ _ _

/-! ## The frames of a run -/

namespace EntriesIn

theorem pmmAllocFrameTrace_lt (h : EntriesIn size s) : ∀ f ∈ pmmAllocFrameTrace s.pmm, f / 8 < size := by
  unfold pmmAllocFrameTrace
  cases e : (List.range s.pmm.totalFrames).find? fun i => !pmmGetFrame s.pmm i with
  | none => exact fun f hf => h.frames f (List.mem_range.mp hf)
  | some i =>
    have hi := List.mem_range.mp (List.mem_of_find?_eq_some e)
    intro f hf
    refine h.frames f ?_
    simp only [List.mem_append, List.mem_range, List.mem_singleton] at hf
    omega

theorem levelTrace_lt (h : EntriesIn size s) {next : ℕ → Vmm → List ℕ}
    (hnext : ∀ t s', EntriesIn size s' → ∀ f ∈ next t s', f / 8 < size) :
    ∀ f ∈ levelTrace s g i next, f / 8 < size := by
  intro f hf
  unfold levelTrace at hf
  rcases List.mem_append.mp hf with hf | hf
  · split_ifs at hf
    · cases hf
    · exact h.pmmAllocFrameTrace_lt f hf
  · have h' := h.nextTable g i
    generalize EitanOS.nextTable s g i = r at h' hf
    obtain ⟨_ | t, s'⟩ := r
    · cases hf
    · exact hnext t s' h' f hf

theorem vmmMapPageTrace_lt (h : EntriesIn size s) (hp : phys / 4096 / 8 < size) :
    ∀ f ∈ vmmMapPageTrace s virt phys, f / 8 < size := by
  apply h.levelTrace_lt
  intro pdpt s₁ h₁
  apply h₁.levelTrace_lt
  intro pd s₂ h₂
  apply h₂.levelTrace_lt
  intro pt s₃ _ f hf
  unfold mapEntryTrace at hf
  split_ifs at hf
  · cases hf
  · rw [mem_reserveUnlessReservedTrace.mp hf]
    exact hp

theorem vmmUnmapPageTrace_lt (h : EntriesIn size s) : ∀ f ∈ vmmUnmapPageTrace s virt, f / 8 < size := by
  intro f hf
  unfold vmmUnmapPageTrace at hf
  cases e : pageTable s virt with
  | none =>
    rw [e] at hf
    cases hf
  | some pt =>
    rw [e] at hf
    dsimp only at hf
    split_ifs at hf with hp
    · rw [mem_freeIfReservedTrace.mp hf]
      exact h.entries pt (tableIndex 1 virt) hp
    · cases hf

theorem vmmEditPageTrace_lt (h : EntriesIn size s) (hp : phys / 4096 / 8 < size) :
    ∀ f ∈ vmmEditPageTrace s virt phys, f / 8 < size := by
  intro f hf
  unfold vmmEditPageTrace at hf
  cases e : pageTable s virt with
  | none =>
    rw [e] at hf
    cases hf
  | some pt =>
    rw [e] at hf
    dsimp only at hf
    split_ifs at hf with hpres
    · rcases List.mem_append.mp hf with hf | hf
      · rw [mem_freeIfReservedTrace.mp hf]
        exact h.entries pt (tableIndex 1 virt) hpres.1
      · rw [mem_reserveUnlessReservedTrace.mp hf]
        exact hp
    · cases hf

theorem unmapLoopTrace_lt (h : EntriesIn size s) : ∀ f ∈ unmapLoopTrace s startVirt n i, f / 8 < size := by
  induction n generalizing s i with
  | zero => nofun
  | succ n ih =>
    intro f hf
    rcases List.mem_append.mp hf with hf | hf
    · exact h.vmmUnmapPageTrace_lt f hf
    · exact ih (h.vmmUnmapPage _) f hf

theorem allocLoopTrace_lt (h : EntriesIn size s) :
    ∀ f ∈ allocLoopTrace s startVirt flags n i, f / 8 < size := by
  induction n generalizing s i with
  | zero => nofun
  | succ n ih =>
    intro f hf
    rw [allocLoopTrace] at hf
    dsimp only at hf
    rcases List.mem_append.mp hf with hf | hf
    · exact h.pmmAllocFrameTrace_lt f hf
    by_cases hnull : (pmmAllocFrame s.pmm).1 = 0
    · rw [if_pos hnull] at hf
      cases hf
    rw [if_neg hnull] at hf
    rcases List.mem_append.mp hf with hf | hf
    · have h₁ : EntriesIn size { s with pmm := (pmmAllocFrame s.pmm).2 } :=
        h.withPmm (pmmAllocFrame_totalFrames s.pmm)
      refine h₁.vmmMapPageTrace_lt ?_ f hf
      rw [Nat.mul_div_cancel _ (by decide)]
      exact h.allocFrame
    · split_ifs at hf
      · exact ih (h.mapAllocated _ _) f hf
      · rw [List.mem_singleton.mp hf]
        exact h.allocFrame

theorem vmmAllocTrace_lt (h : EntriesIn size s) {endVirt : ℕ} :
    ∀ f ∈ vmmAllocTrace s startVirt endVirt flags, f / 8 < size := by
  intro f hf
  rcases List.mem_append.mp hf with hf | hf
  · exact h.allocLoopTrace_lt f hf
  · have h' := h.allocLoop startVirt flags (pageAmount startVirt endVirt) 0
    generalize EitanOS.allocLoop s startVirt flags (pageAmount startVirt endVirt) 0 = r at h' hf
    obtain ⟨_ | failed, s'⟩ := r
    · cases hf
    · exact EntriesIn.unmapLoopTrace_lt h' f hf

theorem trace_lt (h : EntriesIn size s) {c : VmmCall} (hc : c.PhysIn size) :
    ∀ f ∈ c.trace s, f / 8 < size := by
  cases c with
  | map virt phys flags => exact h.vmmMapPageTrace_lt hc
  | unmap virt => exact h.vmmUnmapPageTrace_lt
  | edit virt phys flags => exact h.vmmEditPageTrace_lt hc
  | alloc startVirt endVirt flags => exact h.vmmAllocTrace_lt

/-- **In a run** to which only addresses in bounds are passed, everything is in bounds. -/
theorem runTrace_lt (h : EntriesIn size s) {cs : List VmmCall} (hcs : ∀ c ∈ cs, c.PhysIn size) :
    ∀ f ∈ runTrace s cs, f / 8 < size := by
  induction cs generalizing s with
  | nil => nofun
  | cons c cs ih =>
    obtain ⟨hc, hcs⟩ := List.forall_mem_cons.mp hcs
    intro f hf
    rcases List.mem_append.mp hf with hf | hf
    · exact h.trace_lt hc f hf
    · exact ih (h.run hc) hcs f hf

end EntriesIn

theorem levelTrace_eq (h : walkTable s g i = some t) (next : ℕ → Vmm → List ℕ) :
    levelTrace s g i next = next t s := by
  unfold walkTable at h
  unfold levelTrace nextTable
  dsimp only at h ⊢
  split_ifs at h ⊢
  cases h
  rfl

theorem mem_vmmMapPageTrace (ht : pageTable s virt = some t)
    (hp : (s.frames t (tableIndex 1 virt)).present = false) :
    f ∈ vmmMapPageTrace s virt phys ↔ f = phys / 4096 := by
  unfold pageTable at ht
  obtain ⟨pdpt, h₄, ht⟩ := Option.bind_eq_some_iff.mp ht
  obtain ⟨pd, h₃, h₂⟩ := Option.bind_eq_some_iff.mp ht
  unfold vmmMapPageTrace
  rw [levelTrace_eq h₄, levelTrace_eq h₃, levelTrace_eq h₂, mapEntryTrace, if_neg (by simp [hp]),
    mem_reserveUnlessReservedTrace]

theorem mem_vmmUnmapPageTrace (ht : pageTable s virt = some t)
    (hp : (s.frames t (tableIndex 1 virt)).present = true) :
    f ∈ vmmUnmapPageTrace s virt ↔ f = (s.frames t (tableIndex 1 virt)).frame := by
  unfold vmmUnmapPageTrace
  rw [ht]
  dsimp only
  rw [if_pos hp, mem_freeIfReservedTrace]

theorem runTrace_single (s : Vmm) (c : VmmCall) : runTrace s [c] = c.trace s := List.append_nil _

/-! ## At boot -/

variable {es : List MemmapEntry}

theorem le_foldl_raiseTop (es : List MemmapEntry) (top : ℕ) :
    top ≤ es.foldl raiseTop top ∧ ∀ e ∈ es, e.type = .usable → e.limit ≤ es.foldl raiseTop top := by
  induction es generalizing top with
  | nil => exact ⟨le_rfl, nofun⟩
  | cons e es ih =>
    obtain ⟨htop, hes⟩ := ih (raiseTop top e)
    have hstep : top ≤ raiseTop top e ∧ (e.type = .usable → e.limit ≤ raiseTop top e) := by
      unfold raiseTop
      split_ifs with hc
      · exact ⟨hc.2.le, fun _ => le_rfl⟩
      · exact ⟨le_rfl, fun hu => not_lt.mp fun hlt => hc ⟨hu, hlt⟩⟩
    refine ⟨hstep.1.trans htop, fun a ha hu => ?_⟩
    rcases List.mem_cons.mp ha with rfl | ha
    · exact (hstep.2 hu).trans htop
    · exact hes a ha hu

theorem limit_le_topOfRam {e : MemmapEntry} (he : e ∈ es) (hu : e.type = .usable) :
    e.limit ≤ topOfRam es := (le_foldl_raiseTop es 0).2 e he hu

/-- **The frames at boot** are at most `total_frames`, and `total_frames` is one of them. -/
theorem pmmInitTrace_spec (hb : ∃ e ∈ es, e.type = .usable ∧ bitmapSize es ≤ e.length) :
    (∀ f ∈ pmmInitTrace es, f ≤ topOfRam es / 4096) ∧ topOfRam es / 4096 ∈ pmmInitTrace es := by
  obtain ⟨b, hbe⟩ := exists_bitmapEntry hb
  obtain ⟨hbm, hbu, hbl⟩ := bitmapEntry_spec hbe
  obtain ⟨-, es', -, hplace, -⟩ := pmmInit_free (fun _ => 0) hbe
  obtain ⟨hback, hforth⟩ := placeBitmap_mem hplace
  have hmem : ∀ f, f ∈ pmmInitTrace es ↔
      (∃ e ∈ es', e.type = .usable ∧ e.base / 4096 ≤ f ∧ f ≤ e.limit / 4096) ∨
        b.base / 4096 ≤ f ∧ f ≤ (b.base + bitmapSize es) / 4096 := fun f => by
    unfold pmmInitTrace
    rw [hplace]
    dsimp only
    rw [List.mem_append, List.mem_flatMap, regionTrace, mem_region]
    refine or_congr_left (exists_congr fun e => and_congr_right fun _ => ?_)
    split_ifs with hu
    · rw [regionTrace, mem_region, and_iff_right hu]
    · simp [hu]
  constructor
  · intro f hf
    rcases (hmem f).mp hf with ⟨e', he', hu', -, hle⟩ | ⟨-, hle⟩
    · obtain ⟨e, he, ht, -, hlim⟩ := hback e' he'
      exact hle.trans (Nat.div_le_div_right (hlim ▸ limit_le_topOfRam he (ht ▸ hu')))
    · have := limit_le_topOfRam hbm hbu
      unfold MemmapEntry.limit at this
      exact hle.trans (Nat.div_le_div_right (by omega))
  · -- the topmost region ends there
    obtain ⟨e, he, hu, htop⟩ : ∃ e ∈ es, e.type = .usable ∧ topOfRam es = e.limit := by
      rcases foldl_raiseTop es 0 with h | h
      · exact ⟨b, hbm, hbu, le_antisymm (h.le.trans (Nat.zero_le _)) (limit_le_topOfRam hbm hbu)⟩
      · exact h
    obtain ⟨e', he', ht, hle, hlim⟩ := hforth e he
    refine (hmem _).mpr (.inl ⟨e', he', ht.trans hu, ?_, ?_⟩)
    · rw [htop, ← hlim]
      exact Nat.div_le_div_right hle
    · rw [htop, hlim]

/-- **When the bitmap is not overrun.** For every memory map with a region that can hold the bitmap:
`pmm_init` keeps to the bitmap exactly if the number of frames is no multiple of 8; and so does every
run of calls after it, from every state whose entries lead into it and with addresses that lie in it.
Neither can be left out: with another address the mapping of a page that is not mapped leaves the
bitmap, and with another entry its unmapping does. -/
theorem bitmap_in_bounds (hb : ∃ e ∈ es, e.type = .usable ∧ bitmapSize es ≤ e.length) :
    ((∀ f ∈ pmmInitTrace es, f / 8 < bitmapSize es) ↔ topOfRam es / 4096 % 8 ≠ 0) ∧
    (∀ s : Vmm, EntriesIn (bitmapSize es) s → ∀ cs : List VmmCall,
      (∀ c ∈ cs, c.PhysIn (bitmapSize es)) → ∀ f ∈ runTrace s cs, f / 8 < bitmapSize es) ∧
    ∀ (s : Vmm) (virt pt : ℕ), pageTable s virt = some pt →
      ((s.frames pt (tableIndex 1 virt)).present = false → ∀ phys flags,
        ((∀ f ∈ runTrace s [.map virt phys flags], f / 8 < bitmapSize es) ↔
          phys / 4096 / 8 < bitmapSize es)) ∧
      ((s.frames pt (tableIndex 1 virt)).present = true →
        ((∀ f ∈ runTrace s [.unmap virt], f / 8 < bitmapSize es) ↔
          (s.frames pt (tableIndex 1 virt)).frame / 8 < bitmapSize es)) := by
  obtain ⟨hle, htop⟩ := pmmInitTrace_spec hb
  have hsize : bitmapSize es = (topOfRam es / 4096 + 7) / 8 := rfl
  refine ⟨⟨fun h => ?_, fun h f hf => ?_⟩, fun s he cs hcs => he.runTrace_lt hcs,
    fun s virt pt ht => ⟨fun hp phys flags => ?_, fun hp => ?_⟩⟩
  · have := h _ htop
    omega
  · have := hle f hf
    omega
  · rw [runTrace_single]
    refine (forall_congr' fun f => imp_congr_left (mem_vmmMapPageTrace ht hp)).trans ?_
    exact forall_eq
  · rw [runTrace_single]
    refine (forall_congr' fun f => imp_congr_left (mem_vmmUnmapPageTrace ht hp)).trans ?_
    exact forall_eq

/-- One usable region, on a machine of 9 frames. -/
def nineFrames : List MemmapEntry := [⟨0x1000, 0x8000, .usable, by decide⟩]

/-- The machine after `pmm_init`, with an empty PML4 in frame 2. -/
def nineMachine : Vmm where
  pmm := ⟨fun i => if i = 0 then 7 else 0, 9, by decide, false, false⟩
  frames _ _ := .ofFlags 0
  current := 2
  hhdmOffset := 0xffff800000000000

theorem bitmap_in_bounds_nine_frames :
    (∀ f ∈ pmmInitTrace nineFrames, f / 8 < bitmapSize nineFrames) ∧
      ∀ f ∈ runTrace nineMachine
          [.alloc 0x2000000 0x2001000 7, .edit 0x2000000 0x6000 5, .unmap 0x2000000],
        f / 8 < bitmapSize nineFrames := by
  have hb : ∃ e ∈ nineFrames, e.type = .usable ∧ bitmapSize nineFrames ≤ e.length :=
    ⟨_, List.mem_cons_self, rfl, by decide⟩
  have hframes : ∀ f < 9, f / 8 < bitmapSize nineFrames := by decide
  have he : EntriesIn (bitmapSize nineFrames) nineMachine :=
    ⟨hframes 0 (by decide), hframes, fun _ _ hp => by cases hp⟩
  obtain ⟨hinit, hrun, -⟩ := bitmap_in_bounds hb
  refine ⟨hinit.mpr (by decide), hrun nineMachine he _ fun c hc => ?_⟩
  simp only [List.mem_cons, List.not_mem_nil, or_false] at hc
  rcases hc with rfl | rfl | rfl
  · trivial
  · show 0x6000 / 4096 / 8 < bitmapSize nineFrames
    decide
  · trivial

/-- **The bitmap is overrun.** With 8 frames `pmm_init` marks frame 8; with 9 frames `interrupts_init`
asks for the frame of the local APIC. -/
theorem bitmap_overrun :
    (8 ∈ pmmInitTrace adjacentMap ∧ ¬ 8 / 8 < bitmapSize adjacentMap) ∧
      0xFEE00 ∈ runTrace nineMachine interruptsInitCalls ∧
      ¬ 0xFEE00 / 8 < bitmapSize nineFrames := by
  decide +kernel

end EitanOS
