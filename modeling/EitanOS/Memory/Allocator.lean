import EitanOS.Lib.Links
import EitanOS.Lib.Blocks
import Mathlib.Logic.Relation
import Mathlib.Tactic.Common

/-!
# The heap allocator (`memory/allocator.c`)

A heap is word-addressed memory holding the block headers in place (`size` at a block's address,
`next` eight bytes further) and the head of the free list. `malloc_internal` takes the first block
that fits, `free_internal` inserts in address order and coalesces on both sides.

The two `while` loops walk the list in memory; they take a bound `fuel` on the number of their
iterations and return `none` when it is used up.
-/

namespace EitanOS

open Links Blocks

/-- Word-addressed memory: the 64-bit word at each (8-aligned) address. -/
abbrev Mem := ℕ → ℕ

/-- A heap: its memory and `*free_list_ptr`. -/
structure Heap where
  mem : Mem
  freeList : ℕ

/-- `block->size`. -/
abbrev blockSize (m : Mem) (b : ℕ) : ℕ := m b

/-- `block->next`. -/
abbrev blockNext (m : Mem) (b : ℕ) : ℕ := m (b + 8)

/-- `ALIGN_UP(x)` on 64-bit words. -/
def alignUp (x : ℕ) : ℕ := (x + 7) % 2 ^ 64 / 8 * 8

/-- The one-block heap at `base`, as `allocator_heap_init` sets it up. -/
def heapInit (m : Mem) (base heapSize : ℕ) : Heap where
  mem := Function.update (Function.update m base heapSize) (base + 8) 0
  freeList := base

/-- `if (prev) prev->next = b; else *free_list_ptr = b;` -/
def setLink (h : Heap) (prev b : ℕ) : Heap :=
  if prev ≠ 0 then { h with mem := Function.update h.mem (prev + 8) b } else { h with freeList := b }

/-- The body of `malloc_internal`'s loop on a block that fits: split it, or use all of it. -/
def mallocTake (h : Heap) (size prev curr : ℕ) : Heap × ℕ :=
  if 16 + 8 ≤ h.mem curr - size then
    -- the remainder becomes the block at `curr + size`
    let next := curr + size
    let m := Function.update h.mem next (h.mem curr - size)
    let m := Function.update m (next + 8) (m (curr + 8))
    let h := setLink { h with mem := m } prev next
    ({ h with mem := Function.update h.mem curr size }, curr + 16)
  else (setLink h prev (h.mem (curr + 8)), curr + 16)

/-- The `while (curr)` loop of `malloc_internal`. -/
def mallocLoop (h : Heap) (size : ℕ) : ℕ → ℕ → ℕ → Option (Heap × ℕ)
  | 0, _, _ => none
  | fuel + 1, prev, curr =>
    if curr = 0 then some (h, 0)
    else if size ≤ h.mem curr then some (mallocTake h size prev curr)
    else mallocLoop h size fuel curr (h.mem (curr + 8))

/-- `malloc_internal`: the new heap and the returned pointer (`0` is null). -/
def mallocInternal (fuel : ℕ) (h : Heap) (size : ℕ) : Option (Heap × ℕ) :=
  if size = 0 then some (h, 0)
  else mallocLoop h (alignUp ((size + 16) % 2 ^ 64)) fuel 0 h.freeList

/-- The `while (curr && curr < blk)` loop of `free_internal`. -/
def freeScan (m : Mem) (blk : ℕ) : ℕ → ℕ → ℕ → Option (ℕ × ℕ)
  | 0, _, _ => none
  | fuel + 1, prev, curr =>
    if curr ≠ 0 ∧ curr < blk then freeScan m blk fuel curr (m (curr + 8)) else some (prev, curr)

/-- `a->size += b->size; a->next = b->next;` -/
def mergeInto (h : Heap) (a b : ℕ) : Heap :=
  let m := Function.update h.mem a (h.mem a + h.mem b)
  { h with mem := Function.update m (a + 8) (m (b + 8)) }

/-- Coalesce with the next block. -/
def coalesceNext (h : Heap) (blk : ℕ) : Heap :=
  if h.mem (blk + 8) ≠ 0 ∧ blk + h.mem blk = h.mem (blk + 8) then mergeInto h blk (h.mem (blk + 8))
  else h

/-- Coalesce with the previous block. -/
def coalescePrev (h : Heap) (prev blk : ℕ) : Heap :=
  if prev ≠ 0 ∧ prev + h.mem prev = blk then mergeInto h prev blk else h

/-- Link `blk` between `prev` and `curr`. -/
def freeInsert (h : Heap) (blk prev curr : ℕ) : Heap :=
  setLink { h with mem := Function.update h.mem (blk + 8) curr } prev blk

/-- `free_internal`. -/
def freeInternal (fuel : ℕ) (h : Heap) (ptr : ℕ) : Option Heap :=
  if ptr = 0 then some h
  else
    let blk := ptr - 16
    (freeScan h.mem blk fuel 0 h.freeList).map fun (prev, curr) =>
      coalescePrev (coalesceNext (freeInsert h blk prev curr) blk) prev blk

/-! ## Runs -/

/-- A region of memory a heap can be set up on. -/
structure Region where
  base : ℕ
  size : ℕ
  base_pos : 0 < base
  base_aligned : 8 ∣ base
  size_aligned : 8 ∣ size
  le_size : 24 ≤ size
  top_le : base + size ≤ 2 ^ 64

/-- `[HEAP_START_KERNEL, HEAP_START_KERNEL + HEAP_SIZE)`. -/
def kernelRegion : Region :=
  ⟨0xffffc90000000000, 0x100000, by decide, by decide, by decide, by decide, by decide⟩

/-- `[HEAP_START, HEAP_START + HEAP_SIZE)`. -/
def userRegion : Region :=
  ⟨0x0000555555554000, 0x100000, by decide, by decide, by decide, by decide, by decide⟩

/-- A heap with the allocations in progress: the pointers `malloc` returned that were not freed
since, each with the size that was asked for. -/
structure HeapState where
  heap : Heap
  live : List (ℕ × ℕ)

/-- The header address of an allocation. -/
abbrev header (x : ℕ × ℕ) : ℕ := x.1 - 16

/-- One step of a heap's clients. -/
inductive HeapStep : HeapState → HeapState → Prop
  | malloc {s : HeapState} {fuel size p : ℕ} {h : Heap} (h₁ : 1 ≤ size) (h₂ : size ≤ 2 ^ 64 - 24)
      (e : mallocInternal fuel s.heap size = some (h, p)) :
      HeapStep s ⟨h, if p = 0 then s.live else (p, size) :: s.live⟩
  | free {s : HeapState} {fuel : ℕ} {x : ℕ × ℕ} {h : Heap} (hx : x ∈ s.live)
      (e : freeInternal fuel s.heap x.1 = some h) : HeapStep s ⟨h, s.live.erase x⟩
  /-- A client writes a word inside a payload of its own. -/
  | write {s : HeapState} {x : ℕ × ℕ} {a v : ℕ} (hx : x ∈ s.live) (h₁ : x.1 ≤ a)
      (h₂ : a + 8 ≤ header x + s.heap.mem (header x)) (h₃ : 8 ∣ a) :
      HeapStep s ⟨{ s.heap with mem := Function.update s.heap.mem a v }, s.live⟩

/-- The states of a heap set up on `R`. -/
def HeapReach (m : Mem) (R : Region) : HeapState → Prop :=
  Relation.ReflTransGen HeapStep ⟨heapInit m R.base R.size, []⟩

end EitanOS
