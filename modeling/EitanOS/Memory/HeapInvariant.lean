import EitanOS.Memory.HeapRefine

/-!
# The representation invariant of the heap

`HeapOk R s free`: the free list in memory is `free`, in address order and coalesced, and together
with the live blocks it tiles the region `R`. Every step of the clients keeps it
(`HeapOk.step`), so it holds in every state of a run (**`heap_reach_ok`**).
-/

namespace EitanOS

open Links Blocks FreeList

/-- The block of an allocation, with the size in its header. -/
def liveBlk (m : Mem) (x : ℕ × ℕ) : Blk := (header x, blockSize m (header x))

/-- **The representation invariant.** -/
structure HeapOk (R : Region) (s : HeapState) (free : List Blk) : Prop extends Rep s.heap free where
  spaced : Spaced free
  shape : ∀ b ∈ free ++ s.live.map (liveBlk s.heap.mem), 8 ∣ b.1 ∧ 8 ∣ b.2 ∧ 24 ≤ b.2
  tiles : Tiles R.base (R.base + R.size) (free ++ s.live.map (liveBlk s.heap.mem))
  payload : ∀ x ∈ s.live, x.2 + 16 ≤ blockSize s.heap.mem (header x)

variable {R : Region} {s : HeapState} {free : List Blk}

theorem HeapOk.init (m : Mem) (R : Region) :
    HeapOk R ⟨heapInit m R.base R.size, []⟩ [(R.base, R.size)] where
  linked := by simp [heapInit]
  sizes b hb := by
    rw [List.mem_singleton.mp hb]
    simp only [heapInit, blockSize]
    rw [Function.update_of_ne (by omega), Function.update_self]
  spaced := List.pairwise_singleton _ _
  shape b hb := by
    have : b = (R.base, R.size) := by simpa using hb
    subst this
    exact ⟨R.base_aligned, R.size_aligned, R.le_size⟩
  tiles := tiles_singleton (by have := R.le_size; omega)
  payload x hx := by simp at hx

theorem heapInit_outside (m : Mem) (R : Region) {a : ℕ} (ha : a < R.base ∨ R.base + R.size ≤ a) :
    (heapInit m R.base R.size).mem a = m a := by
  have := R.le_size
  exact (Function.update_of_ne (by omega) _ _).trans (Function.update_of_ne (by omega) _ _)

theorem HeapOk.ne_null (h : HeapOk R s free) {b : Blk}
    (hb : b ∈ free ++ s.live.map (liveBlk s.heap.mem)) : b.1 ≠ 0 := by
  have := (h.tiles.inside b hb).1
  have := R.base_pos
  omega

theorem HeapOk.sound (h : HeapOk R s free) : Sound free :=
  ⟨h.spaced.imp fun {_ _} => le_of_lt, fun b hb =>
    ⟨h.ne_null (List.mem_append_left _ hb), (h.shape b (List.mem_append_left _ hb)).2.2⟩⟩

theorem HeapOk.apart (h : HeapOk R s free) {b : Blk} {x : ℕ × ℕ} (hb : b ∈ free) (hx : x ∈ s.live) :
    b.1 + b.2 ≤ header x ∨ header x + s.heap.mem (header x) ≤ b.1 :=
  (List.pairwise_append.mp h.tiles.apart).2.2 b hb _ (List.mem_map.mpr ⟨x, hx, rfl⟩)

theorem HeapOk.live_size (h : HeapOk R s free) {x : ℕ × ℕ} (hx : x ∈ s.live) :
    24 ≤ s.heap.mem (header x) :=
  (h.shape (liveBlk s.heap.mem x) (by simp; exact Or.inr ⟨_, _, hx, rfl⟩)).2.2

theorem HeapOk.ptr (h : HeapOk R s free) {x : ℕ × ℕ} (hx : x ∈ s.live) : x.1 = header x + 16 := by
  have := h.ne_null (b := liveBlk s.heap.mem x) (by simp; exact Or.inr ⟨_, _, hx, rfl⟩)
  simp only [liveBlk, header] at this ⊢
  omega

theorem HeapOk.tiles_erase (h : HeapOk R s free) {x : ℕ × ℕ} (hx : x ∈ s.live) :
    Tiles R.base (R.base + R.size)
      (liveBlk s.heap.mem x :: (free ++ (s.live.erase x).map (liveBlk s.heap.mem))) := by
  refine h.tiles.perm (((List.perm_cons_erase hx).map (liveBlk s.heap.mem)).append_left free |>.trans ?_)
  exact List.perm_middle

theorem map_liveBlk_congr {m m' : Mem} {l : List (ℕ × ℕ)}
    (h : ∀ x ∈ l, m' (header x) = m (header x)) : l.map (liveBlk m') = l.map (liveBlk m) :=
  List.map_congr_left fun x hx => by rw [liveBlk, liveBlk, blockSize, blockSize, h x hx]

theorem HeapOk.malloc_frame (h : HeapOk R s free) {fuel size p : ℕ} {h' : Heap} (h₁ : 1 ≤ size)
    (h₂ : size ≤ 2 ^ 64 - 24) (e : mallocInternal fuel s.heap size = some (h', p)) {x : ℕ × ℕ}
    (hx : x ∈ s.live) {a : ℕ} (ha : header x ≤ a) (ha' : a < header x + s.heap.mem (header x)) :
    h'.mem a = s.heap.mem a := by
  rcases mallocInternal_refines h.toRep h.sound h₁ h₂ e with ⟨-, rfl, -⟩ | ⟨b, l, -, -, -, -, hm⟩
  · rfl
  · refine hm a fun d hd => ?_
    have := h.apart hd hx
    omega

/-- **`malloc_internal` keeps the invariant**: it is first fit on the free list. -/
theorem HeapOk.malloc (h : HeapOk R s free) {fuel size p : ℕ} {h' : Heap} (h₁ : 1 ≤ size)
    (h₂ : size ≤ 2 ^ 64 - 24) (e : mallocInternal fuel s.heap size = some (h', p)) :
    ∃ free', HeapOk R ⟨h', if p = 0 then s.live else (p, size) :: s.live⟩ free' ∧
      ((p = 0 ∧ firstFit 24 (alignUp (size + 16)) free = none ∧ h' = s.heap ∧ free' = free) ∨
        ∃ b, firstFit 24 (alignUp (size + 16)) free = some (b, free') ∧ p = b.1 + 16 ∧
          ((p, size) :: s.live).map (liveBlk h'.mem) = b :: s.live.map (liveBlk s.heap.mem)) := by
  have hlive : s.live.map (liveBlk h'.mem) = s.live.map (liveBlk s.heap.mem) :=
    map_liveBlk_congr fun x hx => h.malloc_frame h₁ h₂ e hx le_rfl (by have := h.live_size hx; omega)
  rcases mallocInternal_refines h.toRep h.sound h₁ h₂ e with
    ⟨rfl, rfl, hf⟩ | ⟨b, l, hf, rfl, hr, hb, -⟩
  · exact ⟨free, by simpa using h, Or.inl ⟨rfl, hf, rfl, rfl⟩⟩
  have hle := firstFit_le hf
  have hal := alignUp_le (x := size + 16) (by omega)
  have hnew : liveBlk h'.mem (b.1 + 16, size) = b := by
    simp only [liveBlk, header, Nat.add_sub_cancel, blockSize, hb]
  obtain ⟨hPb, hPl⟩ := firstFit_forall hf (P := fun b => 8 ∣ b.1 ∧ 8 ∣ b.2 ∧ 24 ≤ b.2)
    (fun c hc => h.shape c (List.mem_append_left _ hc)) fun c hc hfit => by
      have h8 := eight_dvd_alignUp (size + 16)
      refine ⟨⟨hc.1, h8, ?_⟩, (Nat.dvd_add_right hc.1).mpr h8, Nat.dvd_sub hc.2.1 h8, ?_⟩
      · unfold alignUp at hal ⊢; omega
      · simp only; omega
  rw [if_neg (by omega)]
  have hblocks : ((b.1 + 16, size) :: s.live).map (liveBlk h'.mem) =
      b :: s.live.map (liveBlk s.heap.mem) := by
    rw [List.map_cons, hnew, hlive]
  refine ⟨l, ⟨hr, firstFit_spaced hf h.spaced, ?_, ?_, ?_⟩, Or.inr ⟨b, hf, rfl, hblocks⟩⟩
  · rw [hblocks]
    intro c hc
    simp only [List.mem_append, List.mem_cons] at hc
    rcases hc with hc | rfl | hc
    · exact hPl c hc
    · exact hPb
    · exact h.shape c (List.mem_append_right _ hc)
  · rw [hblocks]
    exact firstFit_tiles hf (by omega) (by omega) h.tiles
  · intro x hx
    rcases List.mem_cons.mp hx with rfl | hx
    · simp only [header, Nat.add_sub_cancel, blockSize, hb]
      omega
    · exact (h.payload x hx).trans (congrArg Prod.snd (List.map_inj_left.mp hlive x hx)).ge

theorem HeapOk.release_refines (h : HeapOk R s free) {fuel : ℕ} {x : ℕ × ℕ} {h' : Heap}
    (hx : x ∈ s.live) (e : freeInternal fuel s.heap x.1 = some h') :
    Rep h' (insertJoin (liveBlk s.heap.mem x) free) ∧
      ∀ a, (∀ d ∈ liveBlk s.heap.mem x :: free, a < d.1 ∨ d.1 + d.2 ≤ a) →
        h'.mem a = s.heap.mem a := by
  have hbx : liveBlk s.heap.mem x ∈ free ++ s.live.map (liveBlk s.heap.mem) :=
    List.mem_append_right _ (List.mem_map.mpr ⟨x, hx, rfl⟩)
  rw [h.ptr hx] at e
  exact freeInternal_refines h.toRep h.spaced h.sound rfl ⟨h.ne_null hbx, (h.shape _ hbx).2.2⟩
    (fun d hd => Or.symm (h.apart hd hx)) e

theorem HeapOk.release_frame (h : HeapOk R s free) {fuel : ℕ} {x y : ℕ × ℕ} {h' : Heap}
    (hx : x ∈ s.live) (e : freeInternal fuel s.heap x.1 = some h') (hy : y ∈ s.live.erase x) {a : ℕ}
    (ha : header y ≤ a) (ha' : a < header y + s.heap.mem (header y)) : h'.mem a = s.heap.mem a := by
  refine (h.release_refines hx e).2 a fun d hd => ?_
  rcases List.mem_cons.mp hd with rfl | hd
  · have := (h.tiles_erase hx).apart_of_mem (c := liveBlk s.heap.mem y)
      (List.mem_append_right _ (List.mem_map.mpr ⟨y, hy, rfl⟩))
    simp only [Apart, liveBlk, blockSize] at this ⊢
    omega
  · have := h.apart hd (List.mem_of_mem_erase hy)
    omega

theorem HeapOk.release_live (h : HeapOk R s free) {fuel : ℕ} {x : ℕ × ℕ} {h' : Heap}
    (hx : x ∈ s.live) (e : freeInternal fuel s.heap x.1 = some h') :
    (s.live.erase x).map (liveBlk h'.mem) = (s.live.erase x).map (liveBlk s.heap.mem) :=
  map_liveBlk_congr fun y hy => h.release_frame hx e hy le_rfl
    (by have := h.live_size (List.mem_of_mem_erase hy); omega)

/-- **`free_internal` keeps the invariant**: it inserts the block in the free list. -/
theorem HeapOk.release (h : HeapOk R s free) {fuel : ℕ} {x : ℕ × ℕ} {h' : Heap} (hx : x ∈ s.live)
    (e : freeInternal fuel s.heap x.1 = some h') :
    HeapOk R ⟨h', s.live.erase x⟩ (insertJoin (liveBlk s.heap.mem x) free) := by
  have hlive := h.release_live hx e
  have hbx : liveBlk s.heap.mem x ∈ free ++ s.live.map (liveBlk s.heap.mem) :=
    List.mem_append_right _ (List.mem_map.mpr ⟨x, hx, rfl⟩)
  refine ⟨(h.release_refines hx e).1, ?_, ?_, ?_, ?_⟩
  · exact insertJoin_spaced h.spaced (fun d hd => Or.symm (h.apart hd hx))
      fun d hd => h.tiles.pos d (List.mem_append_left _ hd)
  · rw [hlive]
    intro c hc
    rcases List.mem_append.mp hc with hc | hc
    · refine insertJoin_forall (P := fun b => 8 ∣ b.1 ∧ 8 ∣ b.2 ∧ 24 ≤ b.2) ?_ ?_ c hc
      · intro d hd
        rcases List.mem_cons.mp hd with rfl | hd
        · exact h.shape _ hbx
        · exact h.shape d (List.mem_append_left _ hd)
      · rintro c d ⟨h₁, h₂, h₃⟩ ⟨-, h₄, h₅⟩
        exact ⟨h₁, (Nat.dvd_add_right h₂).mpr h₄, by simp only; omega⟩
    · refine h.shape c (List.mem_append_right _ ?_)
      obtain ⟨y, hy, rfl⟩ := List.mem_map.mp hc
      exact List.mem_map.mpr ⟨y, List.mem_of_mem_erase hy, rfl⟩
  · rw [hlive]
    exact insertJoin_tiles (h.tiles_erase hx)
  · intro y hy
    exact (h.payload y (List.mem_of_mem_erase hy)).trans
      (congrArg Prod.snd (List.map_inj_left.mp hlive y hy)).ge

/-- **A client's write keeps the invariant.** -/
theorem HeapOk.write (h : HeapOk R s free) {x : ℕ × ℕ} {a v : ℕ} (hx : x ∈ s.live) (h₁ : x.1 ≤ a)
    (h₂ : a + 8 ≤ header x + s.heap.mem (header x)) :
    HeapOk R ⟨{ s.heap with mem := Function.update s.heap.mem a v }, s.live⟩ free := by
  have hp := h.ptr hx
  have hfree : ∀ b ∈ free, b.1 ≠ a ∧ b.1 + 8 ≠ a := fun b hb => by
    have h₃ := h.apart hb hx
    have h₄ := (h.shape b (List.mem_append_left _ hb)).2.2
    omega
  have hhead : ∀ y ∈ s.live, header y ≠ a := fun y hy => by
    by_cases hyx : y = x
    · subst hyx; omega
    · have h₃ := (h.tiles_erase hx).apart_of_mem (c := liveBlk s.heap.mem y) (List.mem_append_right _
        (List.mem_map.mpr ⟨y, (List.mem_erase_of_ne hyx).mpr hy, rfl⟩))
      have h₄ := h.live_size hy
      simp only [Apart, liveBlk, blockSize] at h₃
      omega
  have hlive : s.live.map (liveBlk (Function.update s.heap.mem a v)) =
      s.live.map (liveBlk s.heap.mem) :=
    map_liveBlk_congr fun y hy => Function.update_of_ne (hhead y hy) _ _
  refine ⟨⟨?_, ?_⟩, h.spaced, ?_, ?_, ?_⟩
  · refine h.linked.congr fun b hb => ?_
    obtain ⟨d, hd, rfl⟩ := List.mem_map.mp hb
    exact Function.update_of_ne (hfree d hd).2 _ _
  · intro b hb
    rw [← h.sizes b hb]
    exact Function.update_of_ne (hfree b hb).1 _ _
  · rw [hlive]; exact h.shape
  · rw [hlive]; exact h.tiles
  · intro y hy
    exact (h.payload y hy).trans (Function.update_of_ne (hhead y hy) _ _).ge

theorem HeapOk.congr (h : HeapOk R s free) {m : Mem}
    (hm : ∀ a, R.base ≤ a → a < R.base + R.size → m a = s.heap.mem a) :
    HeapOk R ⟨⟨m, s.heap.freeList⟩, s.live⟩ free := by
  have hin : ∀ b ∈ free ++ s.live.map (liveBlk s.heap.mem), m b.1 = s.heap.mem b.1 ∧
      m (b.1 + 8) = s.heap.mem (b.1 + 8) := fun b hb => by
    have h₁ := h.tiles.inside b hb
    have h₂ := (h.shape b hb).2.2
    exact ⟨hm _ h₁.1 (by omega), hm _ (by omega) (by omega)⟩
  have hlive : s.live.map (liveBlk m) = s.live.map (liveBlk s.heap.mem) :=
    map_liveBlk_congr fun x hx => (hin (liveBlk s.heap.mem x)
      (List.mem_append_right _ (List.mem_map.mpr ⟨x, hx, rfl⟩))).1
  refine ⟨⟨?_, ?_⟩, h.spaced, ?_, ?_, ?_⟩
  · refine h.linked.congr fun b hb => ?_
    obtain ⟨d, hd, rfl⟩ := List.mem_map.mp hb
    exact (hin d (List.mem_append_left _ hd)).2
  · intro b hb
    rw [← h.sizes b hb]
    exact (hin b (List.mem_append_left _ hb)).1
  · rw [hlive]; exact h.shape
  · rw [hlive]; exact h.tiles
  · intro x hx
    refine (h.payload x hx).trans ((hin (liveBlk s.heap.mem x) ?_).1.ge)
    exact List.mem_append_right _ (List.mem_map.mpr ⟨x, hx, rfl⟩)

theorem HeapOk.nodup (h : HeapOk R s free) : (s.live.map Prod.fst).Nodup := by
  have ha := List.pairwise_map.mp (List.pairwise_append.mp h.tiles.apart).2.1
  rw [List.Nodup, List.pairwise_map]
  refine (List.Pairwise.and_mem.mp ha).imp fun {x y} ⟨hx, hy, hxy⟩ e => ?_
  have h₁ := h.live_size hx
  have h₂ := h.live_size hy
  have h₃ : header x = header y := congrArg (· - 16) e
  simp only [Apart, liveBlk, blockSize] at hxy
  omega

theorem HeapOk.malloc_outside (h : HeapOk R s free) {fuel size p : ℕ} {h' : Heap} (h₁ : 1 ≤ size)
    (h₂ : size ≤ 2 ^ 64 - 24) (e : mallocInternal fuel s.heap size = some (h', p)) {a : ℕ}
    (ha : a < R.base ∨ R.base + R.size ≤ a) : h'.mem a = s.heap.mem a := by
  rcases mallocInternal_refines h.toRep h.sound h₁ h₂ e with ⟨-, rfl, -⟩ | ⟨b, l, -, -, -, -, hx⟩
  · rfl
  · refine hx a fun d hd => ?_
    have := h.tiles.inside d (List.mem_append_left _ hd)
    omega

theorem HeapOk.release_outside (h : HeapOk R s free) {fuel : ℕ} {x : ℕ × ℕ} {h' : Heap}
    (hx : x ∈ s.live) (e : freeInternal fuel s.heap x.1 = some h') {a : ℕ}
    (ha : a < R.base ∨ R.base + R.size ≤ a) : h'.mem a = s.heap.mem a := by
  refine (h.release_refines hx e).2 a fun d hd => ?_
  rcases List.mem_cons.mp hd with rfl | hd
  · have := h.tiles.inside _ (List.mem_append_right _ (List.mem_map.mpr ⟨x, hx, rfl⟩))
    omega
  · have := h.tiles.inside d (List.mem_append_left _ hd)
    omega

theorem HeapOk.step {s' : HeapState} (h : HeapOk R s free) (hs : HeapStep s s') :
    ∃ free', HeapOk R s' free' := by
  cases hs with
  | malloc h₁ h₂ e =>
    obtain ⟨free', h', -⟩ := h.malloc h₁ h₂ e
    exact ⟨free', h'⟩
  | free hx e => exact ⟨_, h.release hx e⟩
  | write hx h₁ h₂ h₃ => exact ⟨free, h.write hx h₁ h₂⟩

/-- **Every state of a run satisfies the invariant.** -/
theorem heap_reach_ok {m : Mem} (hr : HeapReach m R s) : ∃ free, HeapOk R s free := by
  induction hr with
  | refl => exact ⟨_, HeapOk.init m R⟩
  | tail _ hs ih =>
    obtain ⟨free, ih⟩ := ih
    exact ih.step hs

theorem HeapOk.returns (h : HeapOk R s free) {fuel : ℕ} (hf : free.length < fuel) :
    (∀ size, (mallocInternal fuel s.heap size).isSome = true) ∧
      ∀ p, (freeInternal fuel s.heap p).isSome = true := by
  constructor
  · intro size
    unfold mallocInternal
    split_ifs
    · rfl
    · exact mallocLoop_isSome h.linked (by simpa using hf)
  · intro p
    unfold freeInternal
    split_ifs
    · rfl
    · rw [Option.isSome_map]
      exact freeScan_isSome h.linked (by simpa using hf)

theorem HeapOk.null (h : HeapOk R s free) {fuel size : ℕ} {h' : Heap} (h₁ : 1 ≤ size)
    (h₂ : size ≤ 2 ^ 64 - 24) (e : mallocInternal fuel s.heap size = some (h', 0)) :
    ∀ b ∈ free, b.2 < alignUp (size + 16) := by
  rcases mallocInternal_refines h.toRep h.sound h₁ h₂ e with ⟨-, -, hf⟩ | ⟨b, l, -, hp, -⟩
  · exact firstFit_eq_none.mp hf
  · omega

/-- **The allocator's invariant**, in every state of every run: the list linked in memory is
strictly increasing, ends in null and is fully coalesced; sizes are multiples of 8 and at least 24;
free and live blocks partition the region; every payload is as large as asked for; both calls
return, and `malloc_internal` returns null only if no free block fits. -/
theorem heap_invariant {m : Mem} {R : Region} {s : HeapState} (hr : HeapReach m R s) :
    ∃ free : List Blk,
      Seg (blockNext s.heap.mem) s.heap.freeList (free.map Prod.fst) 0 ∧
      (∀ b ∈ free, blockSize s.heap.mem b.1 = b.2) ∧
      (free.map Prod.fst).Pairwise (· < ·) ∧
      free.IsChain (fun b c => b.1 + b.2 ≠ c.1) ∧
      (∀ b ∈ free ++ s.live.map (liveBlk s.heap.mem), 8 ∣ b.2 ∧ 24 ≤ b.2) ∧
      Tiles R.base (R.base + R.size) (free ++ s.live.map (liveBlk s.heap.mem)) ∧
      (∀ x ∈ s.live, x.1 = header x + 16 ∧ x.2 ≤ blockSize s.heap.mem (header x) - 16) ∧
      ∀ fuel, free.length < fuel →
        (∀ size, 1 ≤ size → size ≤ 2 ^ 64 - 24 → ∃ h p, mallocInternal fuel s.heap size = some (h, p) ∧
          (p = 0 → ∀ b ∈ free, b.2 < alignUp (size + 16))) ∧
        ∀ x ∈ s.live, ∃ h, freeInternal fuel s.heap x.1 = some h := by
  obtain ⟨free, h⟩ := heap_reach_ok hr
  refine ⟨free, h.linked, h.sizes, h.sound.increasing, ?_, fun b hb => (h.shape b hb).2, h.tiles, ?_,
    ?_⟩
  · exact h.spaced.isChain.imp fun b c hbc => Nat.ne_of_lt hbc
  · intro x hx
    have := h.payload x hx
    exact ⟨h.ptr hx, by omega⟩
  · intro fuel hf
    constructor
    · intro size h₁ h₂
      obtain ⟨⟨h', p⟩, e⟩ := Option.isSome_iff_exists.mp ((h.returns hf).1 size)
      exact ⟨h', p, e, fun hp => h.null h₁ h₂ (hp ▸ e)⟩
    · exact fun x _ => Option.isSome_iff_exists.mp ((h.returns hf).2 x.1)

/-- The user heap after one `malloc` of 100 bytes. -/
def oneBlock : HeapState :=
  ⟨(mallocTake (heapInit (fun _ => 0) userRegion.base userRegion.size) 120 0 userRegion.base).1,
    [(0x555555554010, 100)]⟩

theorem oneBlock_reach : HeapReach (fun _ => 0) userRegion oneBlock := by
  refine .tail .refl (@HeapStep.malloc _ 1 100 0x555555554010 _ (by decide) (by decide) ?_)
  simp [mallocInternal, mallocLoop, mallocTake, heapInit, userRegion, alignUp]

theorem heap_invariant_one_block :
    oneBlock.heap.freeList = 0x555555554078 ∧ ∃ free : List Blk,
      Tiles userRegion.base (userRegion.base + userRegion.size)
        (free ++ oneBlock.live.map (liveBlk oneBlock.heap.mem)) := by
  obtain ⟨free, -, -, -, -, -, ht, -⟩ := heap_invariant oneBlock_reach
  exact ⟨rfl, free, ht⟩

end EitanOS
