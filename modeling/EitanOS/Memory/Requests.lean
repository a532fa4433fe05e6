import EitanOS.Memory.HeapInvariant

/-!
# Requests of every size

The malloc system call hands the size over unchecked. `malloc_internal` adds the header and rounds up
in 64-bit arithmetic before it compares, so a request near `2 ^ 64` becomes one for 0, 8 or 16 bytes.

* `HeapRun`: runs with requests of any size, and a record of them.
* `Honours`: what a request should do.
* **`HeapOk.honours_iff`**: in a heap that is in order, a request is honoured exactly if it does not
  wrap around or no block is free.
* **`malloc_honours`**: the same over whole runs; after the first request that is not honoured, the
  heap need not be in order.
-/

namespace EitanOS

open Links Blocks FreeList

/-- **What a request should do**: return null and leave the heap alone, or return a block that is
large enough, with its header, and apart from every free block and every other live one. -/
def Honours (s : HeapState) (size : ℕ) : Prop :=
  ∃ fuel h p, mallocInternal fuel s.heap size = some (h, p) ∧
    (p = 0 ∧ h = s.heap ∨
      p ≠ 0 ∧ size + 16 ≤ blockSize h.mem (header (p, size)) ∧ ∃ free, Rep h free ∧
        (∀ b ∈ free, b.2 ≠ 0) ∧
        ∀ b ∈ free ++ s.live.map (liveBlk h.mem), Blocks.Apart (liveBlk h.mem (p, size)) b)

/-- Runs on a heap set up on `R`, with the requests made and the states they were made in, last
first. -/
inductive HeapRun (m : Mem) (R : Region) : List (HeapState × ℕ) → HeapState → Prop
  | init : HeapRun m R [] ⟨heapInit m R.base R.size, []⟩
  | malloc {reqs : List (HeapState × ℕ)} {s : HeapState} {fuel size p : ℕ} {h : Heap}
      (hr : HeapRun m R reqs s) (hs : size < 2 ^ 64)
      (e : mallocInternal fuel s.heap size = some (h, p)) :
      HeapRun m R ((s, size) :: reqs) ⟨h, if p = 0 then s.live else (p, size) :: s.live⟩
  | free {reqs : List (HeapState × ℕ)} {s : HeapState} {fuel : ℕ} {x : ℕ × ℕ} {h : Heap}
      (hr : HeapRun m R reqs s) (hx : x ∈ s.live) (e : freeInternal fuel s.heap x.1 = some h) :
      HeapRun m R reqs ⟨h, s.live.erase x⟩
  | write {reqs : List (HeapState × ℕ)} {s : HeapState} {x : ℕ × ℕ} {a v : ℕ}
      (hr : HeapRun m R reqs s) (hx : x ∈ s.live) (h₁ : x.1 ≤ a)
      (h₂ : a + 8 ≤ header x + s.heap.mem (header x)) (h₃ : 8 ∣ a) :
      HeapRun m R reqs ⟨{ s.heap with mem := Function.update s.heap.mem a v }, s.live⟩

/-- The size does not wrap around with the header and the rounding, or no block is free. -/
def Served (s : HeapState) (size : ℕ) : Prop := size ≤ 2 ^ 64 - 24 ∨ s.heap.freeList = 0

variable {m : Mem} {R : Region} {s : HeapState} {free : List Blk} {fuel size p : ℕ} {h' : Heap}
  {reqs : List (HeapState × ℕ)}

/-! ## One request -/

theorem mallocInternal_of_empty (h : s.heap.freeList = 0)
    (e : mallocInternal fuel s.heap size = some (h', p)) : p = 0 ∧ h' = s.heap := by
  unfold mallocInternal at e
  split_ifs at e
  · cases e
    exact ⟨rfl, rfl⟩
  · rw [h] at e
    cases fuel with
    | zero => cases e
    | succ fuel =>
      rw [mallocLoop, if_pos rfl] at e
      cases e
      exact ⟨rfl, rfl⟩

theorem mallocInternal_zero (e : mallocInternal fuel s.heap 0 = some (h', p)) :
    p = 0 ∧ h' = s.heap := by
  rw [mallocInternal, if_pos rfl] at e
  cases e
  exact ⟨rfl, rfl⟩

/-- **A request that does not wrap around is honoured.** -/
theorem HeapOk.honours (h : HeapOk R s free) (h₁ : 1 ≤ size) (h₂ : size ≤ 2 ^ 64 - 24) :
    Honours s size := by
  obtain ⟨⟨h', p⟩, e⟩ := Option.isSome_iff_exists.mp ((h.returns (Nat.lt_succ_self _)).1 size)
  refine ⟨_, h', p, e, ?_⟩
  obtain ⟨free', hok, ⟨rfl, -, rfl, -⟩ | ⟨b, -, rfl, -⟩⟩ := h.malloc h₁ h₂ e
  · exact .inl ⟨rfl, rfl⟩
  · rw [if_neg (by omega)] at hok
    have hp := hok.payload (b.1 + 16, size) List.mem_cons_self
    refine .inr ⟨by omega, hp, free', hok.toRep, fun c hc => ?_, fun c hc => ?_⟩
    · have := (hok.shape c (List.mem_append_left _ hc)).2.2
      omega
    · have ht := hok.tiles_erase (x := (b.1 + 16, size)) List.mem_cons_self
      rw [List.erase_cons_head] at ht
      exact ht.apart_of_mem hc

theorem alignUp_of_wrap (h₁ : 2 ^ 64 - 24 < size) (h₂ : size < 2 ^ 64) :
    alignUp ((size + 16) % 2 ^ 64) ≤ 16 := by
  unfold alignUp
  omega

theorem mallocTake_header_le {h : Heap} {c : ℕ} (hfit : size ≤ h.mem c) :
    (mallocTake h size 0 c).1.mem c ≤ h.mem c ∧ (mallocTake h size 0 c).2 = c + 16 := by
  unfold mallocTake
  split_ifs
  · refine ⟨?_, rfl⟩
    dsimp only
    rw [Function.update_self]
    exact hfit
  · exact ⟨le_rfl, rfl⟩

/-- **A request that wraps around takes the first free block**, and what it returns is smaller than
what was asked for. -/
theorem HeapOk.not_honours (h : HeapOk R s free) (h₁ : 2 ^ 64 - 24 < size) (h₂ : size < 2 ^ 64)
    (hf : s.heap.freeList ≠ 0) : ¬ Honours s size := by
  rintro ⟨fuel, h', p, e, hres⟩
  obtain ⟨b, l, rfl⟩ : ∃ b l, free = b :: l := by
    cases free with
    | nil => exact absurd (seg_nil.mp h.linked) hf
    | cons b l => exact ⟨b, l, rfl⟩
  have hb : b ∈ (b :: l) ++ s.live.map (liveBlk s.heap.mem) := by simp
  have hhead : s.heap.freeList = b.1 := h.linked.1
  have hsize : s.heap.mem b.1 = b.2 := h.sizes b List.mem_cons_self
  have hin := h.tiles.inside b hb
  have h24 := (h.shape b hb).2.2
  have h8 := (h.shape b hb).2.1
  have hal := alignUp_of_wrap h₁ h₂
  have htop := R.top_le
  have hbase := R.base_pos
  have hp : h'.mem b.1 ≤ b.2 ∧ p = b.1 + 16 := by
    rw [mallocInternal, if_neg (by omega)] at e
    cases fuel with
    | zero => cases e
    | succ fuel =>
      have hfit : alignUp ((size + 16) % 2 ^ 64) ≤ s.heap.mem b.1 := by omega
      rw [hhead, mallocLoop, if_neg (hhead ▸ hf), if_pos hfit] at e
      rw [← hsize]
      have htake := mallocTake_header_le hfit
      rwa [Option.some.inj e] at htake
  obtain ⟨hle, rfl⟩ := hp
  rcases hres with ⟨h₀, -⟩ | ⟨-, hbig, -⟩
  · omega
  · simp only [header, blockSize, Nat.add_sub_cancel] at hbig
    omega

/-- **In a heap that is in order**, a request is honoured exactly if it is `Served`. -/
theorem HeapOk.honours_iff (h : HeapOk R s free) (hs : size < 2 ^ 64) :
    Honours s size ↔ Served s size := by
  constructor
  · intro hh
    by_contra hn
    obtain ⟨h₁, h₂⟩ := not_or.mp hn
    exact h.not_honours (by omega) hs h₂ hh
  · rintro (h₁ | h₁)
    · by_cases h₀ : size = 0
      · subst h₀
        exact ⟨0, s.heap, 0, rfl, .inl ⟨rfl, rfl⟩⟩
      · exact h.honours (by omega) h₁
    · obtain ⟨⟨h', p⟩, e⟩ := Option.isSome_iff_exists.mp ((h.returns (Nat.lt_succ_self _)).1 size)
      exact ⟨_, h', p, e, .inl (mallocInternal_of_empty h₁ e)⟩

/-! ## Runs -/

theorem HeapOk.malloc_served (h : HeapOk R s free) (hs : Served s size)
    (e : mallocInternal fuel s.heap size = some (h', p)) :
    ∃ free', HeapOk R ⟨h', if p = 0 then s.live else (p, size) :: s.live⟩ free' := by
  have hnull : p = 0 ∧ h' = s.heap →
      ∃ free', HeapOk R ⟨h', if p = 0 then s.live else (p, size) :: s.live⟩ free' := by
    rintro ⟨rfl, rfl⟩
    exact ⟨free, h⟩
  rcases hs with hs | hs
  · by_cases h₀ : size = 0
    · subst h₀
      exact hnull (mallocInternal_zero e)
    · obtain ⟨free', hok, -⟩ := h.malloc (by omega) hs e
      exact ⟨free', hok⟩
  · exact hnull (mallocInternal_of_empty hs e)

/-- **A run of requests that are served keeps the heap in order.** -/
theorem HeapRun.ok (hr : HeapRun m R reqs s) (hs : ∀ x ∈ reqs, Served x.1 x.2) :
    ∃ free, HeapOk R s free := by
  induction hr with
  | init => exact ⟨_, HeapOk.init m R⟩
  | malloc _ _ e ih =>
    obtain ⟨hserved, hs⟩ := List.forall_mem_cons.mp hs
    obtain ⟨free, h⟩ := ih hs
    exact h.malloc_served hserved e
  | free _ hx e ih =>
    obtain ⟨free, h⟩ := ih hs
    exact ⟨_, h.release hx e⟩
  | write _ hx h₁ h₂ _ ih =>
    obtain ⟨free, h⟩ := ih hs
    exact ⟨free, h.write hx h₁ h₂⟩

theorem HeapRun.honours_cons (hr : HeapRun m R reqs s) (hs : size < 2 ^ 64)
    (ih : (∀ x ∈ reqs, Honours x.1 x.2) ↔ ∀ x ∈ reqs, Served x.1 x.2) :
    (∀ x ∈ (s, size) :: reqs, Honours x.1 x.2) ↔ ∀ x ∈ (s, size) :: reqs, Served x.1 x.2 := by
  rw [List.forall_mem_cons, List.forall_mem_cons, ih]
  refine and_congr_left fun hserved => ?_
  obtain ⟨free, h⟩ := hr.ok hserved
  exact h.honours_iff hs

theorem HeapRun.honours (hr : HeapRun m R reqs s) :
    (∀ x ∈ reqs, Honours x.1 x.2) ↔ ∀ x ∈ reqs, Served x.1 x.2 := by
  induction hr with
  | init => simp
  | malloc hr hs _ ih => exact hr.honours_cons hs ih
  | free _ _ _ ih => exact ih
  | write _ _ _ _ _ ih => exact ih

/-- **Requests of every 64-bit size.** In every run, and for every further request, all requests are
honoured exactly if each of them is at most `2 ^ 64 - 24` or made while no block is free. -/
theorem malloc_honours (hr : HeapRun m R reqs s) (hs : size < 2 ^ 64) :
    (∀ x ∈ (s, size) :: reqs, Honours x.1 x.2) ↔ ∀ x ∈ (s, size) :: reqs, Served x.1 x.2 :=
  hr.honours_cons hs hr.honours

theorem malloc_honours_one_block :
    Honours ⟨heapInit (fun _ => 0) userRegion.base userRegion.size, []⟩ 100 ∧
      Honours oneBlock (2 ^ 20) := by
  have hr : HeapRun (fun _ => 0) userRegion
      [(⟨heapInit (fun _ => 0) userRegion.base userRegion.size, []⟩, 100)] oneBlock := by
    refine @HeapRun.malloc _ _ _ _ 1 100 0x555555554010 _ .init (by decide) ?_
    simp [mallocInternal, mallocLoop, mallocTake, heapInit, userRegion, alignUp]
  have h := (malloc_honours hr (by decide : 2 ^ 20 < 2 ^ 64)).mpr (by
    intro x hx
    simp only [List.mem_cons, List.not_mem_nil, or_false] at hx
    rcases hx with rfl | rfl
    · exact .inl (by decide)
    · exact .inl (by decide))
  exact ⟨h _ (List.mem_cons_of_mem _ List.mem_cons_self), h _ List.mem_cons_self⟩

/-- **A request for `2 ^ 64 - 20` bytes** from a fresh user heap returns the first block with a header
that says 0 bytes. The block stays on the free list, with that size. -/
theorem malloc_wraps :
    HeapRun (fun _ => 0) userRegion [] ⟨heapInit (fun _ => 0) userRegion.base userRegion.size, []⟩ ∧
      (∃ h, mallocInternal 1 (heapInit (fun _ => 0) userRegion.base userRegion.size) (2 ^ 64 - 20) =
          some (h, 0x555555554010) ∧ Rep h [(0x555555554000, 0)]) ∧
      ¬ Honours ⟨heapInit (fun _ => 0) userRegion.base userRegion.size, []⟩ (2 ^ 64 - 20) := by
  have e : mallocInternal 1 (heapInit (fun _ => 0) userRegion.base userRegion.size) (2 ^ 64 - 20) =
      some (mallocTake (heapInit (fun _ => 0) userRegion.base userRegion.size) 0 0
        userRegion.base) := rfl
  refine ⟨.init, ⟨_, e, ?_, ?_⟩, ?_⟩
  · exact ⟨rfl, rfl⟩
  · intro b hb
    rw [List.mem_singleton.mp hb]
    rfl
  · exact (HeapOk.init _ userRegion).not_honours (by decide) (by decide) (by decide)

end EitanOS
