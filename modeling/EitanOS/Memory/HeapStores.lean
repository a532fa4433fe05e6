import EitanOS.Memory.HeapInvariant

/-!
# The words the allocator writes

`mallocStores` and `freeStores` list the stores to memory the two calls make, in the order of the
source; `mallocInternal_stores` and `freeInternal_stores` say that the memory after a call is the
memory before with these stores applied. (`*free_list_ptr` is a field of its own and lies outside
the heap.)

* `readFree`: the free list read back from memory.
* **`heap_memory_refines`**: every store goes to a free block or to the header of the block at hand,
  so the other blocks keep header and payload, and the list read back is the abstract one.
* **`free_order`**: the order of frees does not matter.
-/

namespace EitanOS

open Links Blocks FreeList

/-! ## The stores of a call -/

/-- A store to memory: the address of the word and its value. -/
abbrev Store := ℕ × ℕ

/-- The memory after a list of stores. -/
def applyStores (m : Mem) (ws : List Store) : Mem :=
  ws.foldl (fun m w => Function.update m w.1 w.2) m

@[simp] theorem applyStores_nil (m : Mem) : applyStores m [] = m := rfl

@[simp] theorem applyStores_cons (m : Mem) (w : Store) (ws : List Store) :
    applyStores m (w :: ws) = applyStores (Function.update m w.1 w.2) ws := rfl

@[simp] theorem applyStores_append (m : Mem) (ws ws' : List Store) :
    applyStores m (ws ++ ws') = applyStores (applyStores m ws) ws' := List.foldl_append

/-- The store of `setLink`. -/
def linkStores (prev b : ℕ) : List Store := if prev ≠ 0 then [(prev + 8, b)] else []

/-- The stores of `mallocTake`. -/
def takeStores (m : Mem) (size prev curr : ℕ) : List Store :=
  if 16 + 8 ≤ m curr - size then
    let next := curr + size
    (next, m curr - size) :: (next + 8, Function.update m next (m curr - size) (curr + 8)) ::
      (linkStores prev next ++ [(curr, size)])
  else linkStores prev (m (curr + 8))

/-- The stores of `malloc_internal`. -/
def mallocStores (fuel : ℕ) (h : Heap) (size : ℕ) : Option (List Store) :=
  if size = 0 then some []
  else
    let size := alignUp ((size + 16) % 2 ^ 64)
    (fitScan h.mem size fuel 0 h.freeList).map fun (prev, curr) =>
      if curr = 0 then [] else takeStores h.mem size prev curr

/-- The stores of `mergeInto`. -/
def mergeStores (m : Mem) (a b : ℕ) : List Store :=
  [(a, m a + m b), (a + 8, Function.update m a (m a + m b) (b + 8))]

/-- The stores of `coalesceNext`. -/
def coalesceNextStores (m : Mem) (blk : ℕ) : List Store :=
  if m (blk + 8) ≠ 0 ∧ blk + m blk = m (blk + 8) then mergeStores m blk (m (blk + 8)) else []

/-- The stores of `coalescePrev`. -/
def coalescePrevStores (m : Mem) (prev blk : ℕ) : List Store :=
  if prev ≠ 0 ∧ prev + m prev = blk then mergeStores m prev blk else []

/-- The stores of `free_internal`. -/
def freeStores (fuel : ℕ) (h : Heap) (ptr : ℕ) : Option (List Store) :=
  if ptr = 0 then some []
  else
    let blk := ptr - 16
    (freeScan h.mem blk fuel 0 h.freeList).map fun (prev, curr) =>
      let inserted := freeInsert h blk prev curr
      ((blk + 8, curr) :: linkStores prev blk) ++ coalesceNextStores inserted.mem blk ++
        coalescePrevStores (coalesceNext inserted blk).mem prev blk

section

variable {h h' : Heap} {fuel size prev curr blk p : ℕ} {ws : List Store}

theorem setLink_stores (b : ℕ) : (setLink h prev b).mem = applyStores h.mem (linkStores prev b) := by
  unfold setLink linkStores
  split_ifs <;> rfl

theorem mallocTake_stores :
    (mallocTake h size prev curr).1.mem = applyStores h.mem (takeStores h.mem size prev curr) := by
  unfold mallocTake takeStores
  split_ifs
  · simp only [applyStores_cons, applyStores_append, applyStores_nil, setLink_stores]
  · exact setLink_stores _

/-- **The memory after `malloc_internal`.** -/
theorem mallocInternal_stores (e : mallocInternal fuel h size = some (h', p)) :
    ∃ ws, mallocStores fuel h size = some ws ∧ h'.mem = applyStores h.mem ws := by
  unfold mallocInternal at e
  unfold mallocStores
  split_ifs at e ⊢ with h₀
  · obtain ⟨rfl, rfl⟩ := Prod.mk.inj (Option.some.inj e)
    exact ⟨[], rfl, rfl⟩
  · rw [mallocLoop_eq] at e
    obtain ⟨⟨prev, curr⟩, hscan, hr⟩ := Option.map_eq_some_iff.mp e
    refine ⟨_, Option.map_eq_some_iff.mpr ⟨_, hscan, rfl⟩, ?_⟩
    simp only at hr ⊢
    split_ifs at hr ⊢
    · obtain ⟨rfl, rfl⟩ := Prod.mk.inj hr
      rfl
    · rw [← mallocTake_stores, hr]

theorem coalesceNext_stores :
    (coalesceNext h blk).mem = applyStores h.mem (coalesceNextStores h.mem blk) := by
  unfold coalesceNext coalesceNextStores
  split_ifs <;> rfl

theorem coalescePrev_stores :
    (coalescePrev h prev blk).mem = applyStores h.mem (coalescePrevStores h.mem prev blk) := by
  unfold coalescePrev coalescePrevStores
  split_ifs <;> rfl

/-- **The memory after `free_internal`.** -/
theorem freeInternal_stores (e : freeInternal fuel h p = some h') :
    ∃ ws, freeStores fuel h p = some ws ∧ h'.mem = applyStores h.mem ws := by
  unfold freeInternal at e
  unfold freeStores
  split_ifs at e ⊢ with h₀
  · obtain rfl := Option.some.inj e
    exact ⟨[], rfl, rfl⟩
  · obtain ⟨⟨prev, curr⟩, hscan, rfl⟩ := Option.map_eq_some_iff.mp e
    refine ⟨_, Option.map_eq_some_iff.mpr ⟨_, hscan, rfl⟩, ?_⟩
    simp only [applyStores_append, applyStores_cons]
    rw [coalescePrev_stores, coalesceNext_stores, freeInsert, setLink_stores]

end

/-! ## Where the stores go -/

/-- The word at `a` lies in a free block. -/
def InFree (free : List Blk) (a : ℕ) : Prop := ∃ b ∈ free, b.1 ≤ a ∧ a + 8 ≤ b.1 + b.2

/-- The word at `a` is one of the two header words of the block `blk`. -/
def InHeader (blk a : ℕ) : Prop := a = blk ∨ a = blk + 8

section

variable {R : Region} {s : HeapState} {free k k' : List Blk} {b : Blk} {w : Store}

theorem HeapOk.in_free (h : HeapOk R s free) (hb : b ∈ free) {i : ℕ} (hi : i ≤ 8) :
    InFree free (b.1 + i) := by
  have := (h.shape b (List.mem_append_left _ hb)).2.2
  exact ⟨b, hb, by omega, by omega⟩

theorem HeapOk.prev_mem (h : HeapOk R s (k ++ k')) (hp : lastD (k.map Prod.fst) ≠ 0) :
    ∃ d ∈ k ++ k', d.1 = lastD (k.map Prod.fst) ∧ 8 ∣ d.1 := by
  have hne : k.map Prod.fst ≠ [] := fun e => hp (by rw [e]; rfl)
  obtain ⟨d, hd, e⟩ := List.mem_map.mp (lastD_mem hne)
  have hd' : d ∈ k ++ k' := List.mem_append_left _ hd
  exact ⟨d, hd', e, (h.shape d (List.mem_append_left _ hd')).1⟩

theorem HeapOk.linkStores_inside (h : HeapOk R s (k ++ k')) {v : ℕ}
    (hw : w ∈ linkStores (lastD (k.map Prod.fst)) v) : 8 ∣ w.1 ∧ InFree (k ++ k') w.1 := by
  unfold linkStores at hw
  split_ifs at hw with hp
  · obtain rfl := List.mem_singleton.mp hw
    obtain ⟨d, hd, e, h8⟩ := h.prev_mem hp
    rw [← e]
    exact ⟨(Nat.dvd_add_right h8).mpr (dvd_refl 8), h.in_free hd le_rfl⟩
  · exact absurd hw List.not_mem_nil

theorem HeapOk.takeStores_inside (h : HeapOk R s (k ++ b :: k')) {size : ℕ} (h8 : 8 ∣ size)
    (hw : w ∈ takeStores s.heap.mem size (lastD (k.map Prod.fst)) b.1) :
    8 ∣ w.1 ∧ InFree (k ++ b :: k') w.1 := by
  have hb : b ∈ k ++ b :: k' := by simp
  have hsize : s.heap.mem b.1 = b.2 := h.sizes b hb
  have hshape := h.shape b (List.mem_append_left _ hb)
  have hnext : 8 ∣ b.1 + size := (Nat.dvd_add_right hshape.1).mpr h8
  unfold takeStores at hw
  split_ifs at hw with hsplit
  · rw [hsize] at hsplit
    simp only [List.mem_cons, List.mem_append, List.not_mem_nil, or_false] at hw
    -- the new header lies inside the block that is split
    rcases hw with rfl | rfl | hw | rfl
    · exact ⟨hnext, b, hb, by simp only; omega, by simp only; omega⟩
    · exact ⟨(Nat.dvd_add_right hnext).mpr (dvd_refl 8), b, hb, by simp only; omega,
        by simp only; omega⟩
    · exact h.linkStores_inside hw
    · exact ⟨hshape.1, h.in_free hb (Nat.zero_le 8)⟩
  · exact h.linkStores_inside hw

/-- **Every store of `malloc_internal` goes to a free block.** -/
theorem HeapOk.mallocStores_inside (h : HeapOk R s free) {fuel size : ℕ} {ws : List Store}
    (e : mallocStores fuel s.heap size = some ws) : ∀ w ∈ ws, 8 ∣ w.1 ∧ InFree free w.1 := by
  intro w hw
  unfold mallocStores at e
  split_ifs at e
  · obtain rfl := Option.some.inj e
    exact absurd hw List.not_mem_nil
  · obtain ⟨⟨prev, curr⟩, hscan, rfl⟩ := Option.map_eq_some_iff.mp e
    simp only at hw
    split_ifs at hw with hc
    · exact absurd hw List.not_mem_nil
    rw [← lastD_nil] at hscan
    rcases fitScan_spec h.linked h.sound.ne_zero (by simp) hscan with ⟨h₁, -⟩ | ⟨-, k, k', h₁, rfl, -⟩
    · exact absurd h₁ hc
    · obtain ⟨k, l, rfl, rfl, hl⟩ := List.map_eq_append_iff.mp h₁
      obtain ⟨c, k', rfl, rfl, rfl⟩ := List.map_eq_cons_iff.mp hl
      exact h.takeStores_inside (eight_dvd_alignUp _) hw

theorem mem_mergeStores {m : Mem} {a c : ℕ} (hw : w ∈ mergeStores m a c) : InHeader a w.1 := by
  rcases List.mem_cons.mp hw with rfl | hw
  · exact Or.inl rfl
  · exact Or.inr (congrArg Prod.fst (List.mem_singleton.mp hw))

/-- **Every store of `free_internal` goes to a free block or to the header of the block it
frees.** -/
theorem HeapOk.freeStores_inside (h : HeapOk R s free) {fuel : ℕ} {x : ℕ × ℕ} {ws : List Store}
    (hx : x ∈ s.live) (e : freeStores fuel s.heap x.1 = some ws) :
    ∀ w ∈ ws, 8 ∣ w.1 ∧ (InFree free w.1 ∨ InHeader (header x) w.1) := by
  intro w hw
  have hx8 : 8 ∣ header x :=
    (h.shape (liveBlk s.heap.mem x) (List.mem_append_right _ (List.mem_map.mpr ⟨x, hx, rfl⟩))).1
  have hhead : InHeader (header x) w.1 → 8 ∣ w.1 ∧ (InFree free w.1 ∨ InHeader (header x) w.1) := by
    intro hw
    refine ⟨?_, Or.inr hw⟩
    rcases hw with e | e
    · exact e ▸ hx8
    · exact e ▸ (Nat.dvd_add_right hx8).mpr (dvd_refl 8)
  have hptr := h.ptr hx
  rw [freeStores, if_neg (by omega)] at e
  obtain ⟨⟨prev, curr⟩, hscan, rfl⟩ := Option.map_eq_some_iff.mp e
  rw [← lastD_nil] at hscan
  obtain ⟨k, k', h₁, rfl, -⟩ :=
    freeScan_spec h.linked h.sound.ne_zero h.sound.increasing (by simp) hscan
  obtain ⟨k, k', rfl, rfl, rfl⟩ := List.map_eq_append_iff.mp h₁
  simp only [List.mem_append, List.mem_cons] at hw
  rcases hw with ((rfl | hw) | hw) | hw
  · exact hhead (Or.inr rfl)
  · exact (h.linkStores_inside hw).imp_right Or.inl
  · unfold coalesceNextStores at hw
    split_ifs at hw
    · exact hhead (mem_mergeStores hw)
    · exact absurd hw List.not_mem_nil
  · unfold coalescePrevStores at hw
    split_ifs at hw with hp
    · obtain ⟨d, hd, e, h8⟩ := h.prev_mem hp.1
      rcases mem_mergeStores hw with e' | e'
      · rw [e', ← e]
        exact ⟨h8, Or.inl (h.in_free hd (Nat.zero_le 8))⟩
      · rw [e', ← e]
        exact ⟨(Nat.dvd_add_right h8).mpr (dvd_refl 8), Or.inl (h.in_free hd le_rfl)⟩
    · exact absurd hw List.not_mem_nil

end

/-! ## The list read back -/

/-- The free list as it stands in memory, read from `curr` on. -/
def readFree (m : Mem) : ℕ → ℕ → Option (List Blk)
  | 0, _ => none
  | fuel + 1, curr =>
    if curr = 0 then some []
    else (readFree m fuel (blockNext m curr)).map ((curr, blockSize m curr) :: ·)

/-- The free list of `h` read back is `free`. -/
def ReadsBack (h : Heap) (free : List Blk) : Prop :=
  readFree h.mem (free.length + 1) h.freeList = some free

theorem readFree_eq {m : Mem} {free : List Blk} {curr : ℕ}
    (hl : Seg (blockNext m) curr (free.map Prod.fst) 0) (hs : ∀ b ∈ free, blockSize m b.1 = b.2)
    (h0 : ∀ b ∈ free, b.1 ≠ 0) : readFree m (free.length + 1) curr = some free := by
  induction free generalizing curr with
  | nil => rw [readFree, if_pos (seg_nil.mp hl)]
  | cons b free ih =>
    obtain ⟨rfl, hl⟩ := hl
    rw [List.length_cons, readFree, if_neg (h0 b List.mem_cons_self), ih hl
      (fun c hc => hs c (List.mem_cons_of_mem _ hc)) fun c hc => h0 c (List.mem_cons_of_mem _ hc),
      hs b List.mem_cons_self]
    rfl

theorem HeapOk.readsBack {R : Region} {s : HeapState} {free : List Blk} (h : HeapOk R s free) :
    ReadsBack s.heap free :=
  readFree_eq h.linked h.sizes fun _ hb => h.ne_null (List.mem_append_left _ hb)

/-- What `malloc` means for the free list: the list after the call and the pointer. -/
def abstractMalloc (size : ℕ) (free : List Blk) : List Blk × ℕ :=
  if size = 0 then (free, 0)
  else
    match firstFit 24 (alignUp (size + 16)) free with
    | none => (free, 0)
    | some (b, rest) => (rest, b.1 + 16)

/-- What `free` of the block `b` means for the free list. -/
def abstractFree (b : Blk) (free : List Blk) : List Blk := insertJoin b free

/-- A call that left the heap `h`: it made the stores `ws`, all of them to free blocks or to the
header of `blk`; the blocks of `others` are as they were, and the free list is now `free'`. -/
structure CallOk (s : HeapState) (free : List Blk) (blk : ℕ) (others : List (ℕ × ℕ))
    (ws : List Store) (h : Heap) (free' : List Blk) : Prop where
  mem_eq : h.mem = applyStores s.heap.mem ws
  inside : ∀ w ∈ ws, 8 ∣ w.1 ∧ (InFree free w.1 ∨ InHeader blk w.1)
  others_keep : ∀ x ∈ others, ∀ a, header x ≤ a →
    a < header x + blockSize s.heap.mem (header x) → h.mem a = s.heap.mem a
  sorted : Spaced free'
  list_eq : ReadsBack h free'

section

variable {R : Region} {s : HeapState} {free : List Blk}

theorem HeapOk.malloc_call (h : HeapOk R s free) {fuel size p : ℕ} {h' : Heap}
    (h₂ : size ≤ 2 ^ 64 - 24) (e : mallocInternal fuel s.heap size = some (h', p)) :
    ∃ ws, mallocStores fuel s.heap size = some ws ∧ (abstractMalloc size free).2 = p ∧
      CallOk s free (p - 16) s.live ws h' (abstractMalloc size free).1 := by
  obtain ⟨ws, hws, hm⟩ := mallocInternal_stores e
  have hin := h.mallocStores_inside hws
  rw [abstractMalloc]
  by_cases h₀ : size = 0
  · rw [mallocInternal, if_pos h₀] at e
    obtain ⟨rfl, rfl⟩ := Prod.mk.inj (Option.some.inj e)
    rw [if_pos h₀]
    exact ⟨ws, hws, rfl, hm, fun w hw => (hin w hw).imp_right Or.inl, fun _ _ _ _ _ => rfl,
      h.spaced, h.readsBack⟩
  have h₁ : 1 ≤ size := by omega
  have hkeep := fun x hx a => h.malloc_frame h₁ h₂ e (x := x) hx (a := a)
  obtain ⟨free', hok, ⟨rfl, hf, rfl, rfl⟩ | ⟨b, hf, rfl, -⟩⟩ := h.malloc h₁ h₂ e
  · simp only [hf, if_neg h₀]
    exact ⟨ws, hws, trivial, hm, fun w hw => (hin w hw).imp_right Or.inl, hkeep, h.spaced,
      h.readsBack⟩
  · simp only [hf, if_neg h₀]
    exact ⟨ws, hws, trivial, hm, fun w hw => (hin w hw).imp_right Or.inl, hkeep, hok.spaced,
      hok.readsBack⟩

theorem HeapOk.free_call (h : HeapOk R s free) {fuel : ℕ} {x : ℕ × ℕ} {h' : Heap}
    (hx : x ∈ s.live) (e : freeInternal fuel s.heap x.1 = some h') :
    ∃ ws, freeStores fuel s.heap x.1 = some ws ∧ CallOk s free (header x) (s.live.erase x) ws h'
      (abstractFree (liveBlk s.heap.mem x) free) := by
  obtain ⟨ws, hws, hm⟩ := freeInternal_stores e
  have hok := h.release hx e
  exact ⟨ws, hws, hm, h.freeStores_inside hx hws, fun y hy a => h.release_frame hx e hy, hok.spaced,
    hok.readsBack⟩

end

/-- **The allocator at the level of memory**, in every state of every run: both calls return, every
word they write lies in a free block or in the header of the block at hand, all other blocks in use
keep their header and payload, and the list read back from memory is the abstract free list. -/
theorem heap_memory_refines {m : Mem} {R : Region} {s : HeapState} (hr : HeapReach m R s) :
    ∃ free : List Blk, ReadsBack s.heap free ∧ Spaced free ∧
      Tiles R.base (R.base + R.size) (free ++ s.live.map (liveBlk s.heap.mem)) ∧
      ∀ fuel, free.length < fuel →
        (∀ size, size ≤ 2 ^ 64 - 24 → ∃ h p ws, mallocInternal fuel s.heap size = some (h, p) ∧
          mallocStores fuel s.heap size = some ws ∧ (abstractMalloc size free).2 = p ∧
          CallOk s free (p - 16) s.live ws h (abstractMalloc size free).1) ∧
        ∀ x ∈ s.live, ∃ h ws, freeInternal fuel s.heap x.1 = some h ∧
          freeStores fuel s.heap x.1 = some ws ∧
          CallOk s free (header x) (s.live.erase x) ws h
            (abstractFree (liveBlk s.heap.mem x) free) := by
  obtain ⟨free, h⟩ := heap_reach_ok hr
  refine ⟨free, h.readsBack, h.spaced, h.tiles, fun fuel hf => ⟨fun size h₂ => ?_, fun x hx => ?_⟩⟩
  · obtain ⟨⟨h', p⟩, e⟩ := Option.isSome_iff_exists.mp ((h.returns hf).1 size)
    obtain ⟨ws, hws⟩ := h.malloc_call h₂ e
    exact ⟨h', p, ws, e, hws⟩
  · obtain ⟨h', e⟩ := Option.isSome_iff_exists.mp ((h.returns hf).2 x.1)
    obtain ⟨ws, hws⟩ := h.free_call hx e
    exact ⟨h', ws, e, hws⟩

theorem heap_memory_refines_one_block :
    oneBlock.live = [(0x555555554010, 100)] ∧ ∃ free h ws, ReadsBack oneBlock.heap free ∧
      CallOk oneBlock free 0x555555554000 [] ws h (abstractFree (0x555555554000, 120) free) := by
  obtain ⟨free, hb, -, -, hc⟩ := heap_memory_refines oneBlock_reach
  obtain ⟨h, ws, -, -, hok⟩ := (hc _ (Nat.lt_succ_self _)).2 _ List.mem_cons_self
  exact ⟨rfl, free, h, ws, hb, hok⟩

/-! ## The order of frees -/

/-- `free_internal` on every pointer of a list, in its order. -/
def freeAll (fuel : ℕ) (h : Heap) (ptrs : List ℕ) : Option Heap := ptrs.foldlM (freeInternal fuel) h

section

variable {R : Region} {s : HeapState} {free : List Blk}

theorem HeapOk.length_le (h : HeapOk R s free) : free.length ≤ R.size := by
  have := h.tiles.length_le
  rw [List.length_append] at this
  omega

/-- **Freeing a list of live blocks**: the run succeeds, keeps the invariant and leaves the blocks
that stay in use where they are. -/
theorem HeapOk.freeAll {fuel : ℕ} (hf : R.size < fuel) {xs : List (ℕ × ℕ)} :
    ∀ {s : HeapState} {free : List Blk}, HeapOk R s free → xs.Nodup → (∀ x ∈ xs, x ∈ s.live) →
    ∃ h' free', EitanOS.freeAll fuel s.heap (xs.map Prod.fst) = some h' ∧
      HeapOk R ⟨h', s.live.diff xs⟩ free' ∧
      (s.live.diff xs).map (liveBlk h'.mem) = (s.live.diff xs).map (liveBlk s.heap.mem) := by
  induction xs with
  | nil => exact fun {s free} h _ _ => ⟨s.heap, free, rfl, h, rfl⟩
  | cons x xs ih =>
    intro s free h hn hx
    obtain ⟨hxs, hn⟩ := List.nodup_cons.mp hn
    have hx₀ := hx x List.mem_cons_self
    obtain ⟨h₁, e⟩ := Option.isSome_iff_exists.mp
      ((h.returns (h.length_le.trans_lt hf)).2 x.1)
    obtain ⟨h', free', e', hok, hlive⟩ := ih (h.release hx₀ e) hn fun y hy =>
      (List.mem_erase_of_ne (ne_of_mem_of_not_mem hy hxs)).mpr (hx y (List.mem_cons_of_mem _ hy))
    refine ⟨h', free', ?_, ?_, ?_⟩
    · rw [EitanOS.freeAll, List.map_cons, List.foldlM_cons, e]
      exact e'
    · rwa [List.diff_cons]
    · rw [List.diff_cons]
      refine hlive.trans (map_liveBlk_congr fun y hy => ?_)
      have hy' := (List.diff_sublist _ _).subset hy
      exact congrArg Prod.snd (List.map_inj_left.mp (h.release_live hx₀ e) y hy')

/-- **The blocks in use determine the free list.** -/
theorem HeapOk.free_unique {s' : HeapState} {free' : List Blk} (h : HeapOk R s free)
    (h' : HeapOk R s' free')
    (hp : (s.live.map (liveBlk s.heap.mem)).Perm (s'.live.map (liveBlk s'.heap.mem))) :
    free = free' :=
  eq_of_tiles (h.tiles.perm (hp.append_left free)) h'.tiles h.spaced h'.spaced

theorem exists_allocations {ps : List ℕ} (hn : ps.Nodup) (hp : ∀ p ∈ ps, p ∈ s.live.map Prod.fst) :
    ∃ xs : List (ℕ × ℕ), xs.map Prod.fst = ps ∧ xs.Nodup ∧ ∀ x ∈ xs, x ∈ s.live := by
  induction ps with
  | nil => exact ⟨[], rfl, List.nodup_nil, by simp⟩
  | cons p ps ih =>
    obtain ⟨hn₁, hn₂⟩ := List.nodup_cons.mp hn
    obtain ⟨xs, rfl, hxs, hl⟩ := ih hn₂ fun q hq => hp q (List.mem_cons_of_mem _ hq)
    obtain ⟨x, hx, rfl⟩ := List.mem_map.mp (hp p List.mem_cons_self)
    refine ⟨x :: xs, rfl, List.nodup_cons.mpr ⟨fun h => hn₁ (List.mem_map.mpr ⟨x, h, rfl⟩), hxs⟩, ?_⟩
    intro y hy
    rcases List.mem_cons.mp hy with rfl | hy
    · exact hx
    · exact hl y hy

end

/-- **The order of frees does not matter**: in every state of every run, freeing distinct live
pointers in any two orders succeeds and leaves the same free list, with the same addresses and
sizes; once every live block is freed it is the one block of `allocator_heap_init`. -/
theorem free_order {m : Mem} {R : Region} {s : HeapState} (hr : HeapReach m R s) {ps qs : List ℕ}
    (hn : ps.Nodup) (hl : ∀ p ∈ ps, p ∈ s.live.map Prod.fst) (hpq : ps.Perm qs) {fuel : ℕ}
    (hf : R.size < fuel) :
    ∃ h₁ h₂ free, freeAll fuel s.heap ps = some h₁ ∧ freeAll fuel s.heap qs = some h₂ ∧
      ReadsBack h₁ free ∧ ReadsBack h₂ free ∧
      ((∀ x ∈ s.live, x.1 ∈ ps) → free = [(R.base, R.size)]) := by
  obtain ⟨free, h⟩ := heap_reach_ok hr
  obtain ⟨xs, rfl, hxn, hxl⟩ := exists_allocations hn hl
  obtain ⟨ys, rfl, hyn, hyl⟩ := exists_allocations (hpq.nodup_iff.mp hn) fun q hq =>
    hl q (hpq.mem_iff.mpr hq)
  obtain ⟨h₁, free₁, e₁, hok₁, hlive₁⟩ := h.freeAll hf hxn hxl
  obtain ⟨h₂, free₂, e₂, hok₂, hlive₂⟩ := h.freeAll hf hyn hyl
  -- live allocations with the same pointer are the same
  have hinj : ∀ x ∈ s.live, ∀ y ∈ s.live, x.1 = y.1 → x = y := fun x hx y hy e =>
    List.inj_on_of_nodup_map h.nodup hx hy e
  have hxy : xs.Perm ys := by
    refine (List.perm_ext_iff_of_nodup hxn hyn).mpr fun x => ⟨fun hx => ?_, fun hx => ?_⟩
    · obtain ⟨y, hy, e⟩ := List.mem_map.mp (hpq.mem_iff.mp (List.mem_map.mpr ⟨x, hx, rfl⟩))
      exact hinj y (hyl y hy) x (hxl x hx) e ▸ hy
    · obtain ⟨y, hy, e⟩ := List.mem_map.mp (hpq.mem_iff.mpr (List.mem_map.mpr ⟨x, hx, rfl⟩))
      exact hinj y (hxl y hy) x (hyl x hx) e ▸ hy
  have hperm : ((s.live.diff xs).map (liveBlk h₁.mem)).Perm ((s.live.diff ys).map (liveBlk h₂.mem)) := by
    rw [hlive₁, hlive₂, List.Perm.diff_left s.live hxy]
  obtain rfl := hok₁.free_unique hok₂ hperm
  refine ⟨h₁, h₂, free₁, e₁, e₂, hok₁.readsBack, hok₂.readsBack, fun hcov => ?_⟩
  have hall : s.live.diff xs = [] := List.eq_nil_iff_forall_not_mem.mpr fun x hx => by
    obtain ⟨hxs, hnot⟩ := (List.Nodup.mem_sdiff_iff (List.Nodup.of_map _ h.nodup)).mp hx
    obtain ⟨y, hy, e⟩ := List.mem_map.mp (hcov x hxs)
    exact hnot (hinj y (hxl y hy) x hxs e ▸ hy)
  rw [hall] at hok₁
  exact hok₁.free_unique (HeapOk.init m R) (List.Perm.refl _)

/-- The user heap after two calls of `malloc`, of 100 and of 8 bytes. -/
def twoBlocks : HeapState :=
  ⟨(mallocTake oneBlock.heap 24 0 0x555555554078).1, [(0x555555554088, 8), (0x555555554010, 100)]⟩

theorem twoBlocks_reach : HeapReach (fun _ => 0) userRegion twoBlocks := by
  refine .tail oneBlock_reach (@HeapStep.malloc _ 1 8 0x555555554088 _ (by decide) (by decide) ?_)
  simp [mallocInternal, mallocLoop, mallocTake, heapInit, userRegion, alignUp, oneBlock, setLink]

theorem free_order_two_blocks : ∃ h₁ h₂,
    freeAll 0x100001 twoBlocks.heap [0x555555554010, 0x555555554088] = some h₁ ∧
    freeAll 0x100001 twoBlocks.heap [0x555555554088, 0x555555554010] = some h₂ ∧
    ReadsBack h₁ [(0x555555554000, 0x100000)] ∧ ReadsBack h₂ [(0x555555554000, 0x100000)] := by
  have hl : ∀ p ∈ [0x555555554010, 0x555555554088], p ∈ twoBlocks.live.map Prod.fst := by
    simp [twoBlocks]
  have hperm : [0x555555554010, 0x555555554088].Perm [0x555555554088, 0x555555554010] :=
    List.Perm.swap _ _ _
  have hf : userRegion.size < 0x100001 := by decide
  obtain ⟨h₁, h₂, free, e₁, e₂, r₁, r₂, hfree⟩ :=
    free_order twoBlocks_reach (by decide) hl hperm hf
  obtain rfl := hfree (by simp [twoBlocks])
  exact ⟨h₁, h₂, e₁, e₂, r₁, r₂⟩

end EitanOS
