import EitanOS.Lib.Prog
import EitanOS.Memory.HeapInvariant
import EitanOS.Disk.Drive

/-!
# Heaps and address spaces

The machine a system call runs on: the memory of every address space, with its upper half shared,
and the free lists of the heaps. `malloc` and `free` work on the heap that `data->is_kernel` in the
loaded address space selects, `malloc_kernel` and `free_kernel` on the kernel's. Address spaces and
heaps are numbered by pid; 0 is the kernel's.

A run stops where the code does: on a page fault, whose handler ends in `panic`. The machine also
has a history, `log`, with the blocks the allocator handed out and took back.

* `Owned`: every block taken into a free list was allocated from the heap of that list.
* **`Holds`**: the assertion that the running code holds some blocks, with its rules `malloc_spec`,
  `free_spec` and their kernel variants.
-/

namespace EitanOS

open Links Blocks Prog

/-- What the allocator did: hand out the block at `ptr`, or insert it into the free list. -/
inductive HeapEvent
  | malloc (heap ptr size : ℕ)
  | free (heap ptr : ℕ)
deriving DecidableEq

/-- **Every block inserted into a free list was allocated from the same heap before.** The last
event of a history comes first. -/
def Owned (log : List HeapEvent) : Prop :=
  ∀ later heap ptr earlier, log = later ++ .free heap ptr :: earlier →
    ∃ size, HeapEvent.malloc heap ptr size ∈ earlier

theorem owned_nil : Owned [] := fun later _ _ _ h => by simp at h

theorem Owned.malloc {log : List HeapEvent} (h : Owned log) (heap ptr size : ℕ) :
    Owned (.malloc heap ptr size :: log) := by
  intro later o p earlier e
  cases later with
  | nil => simp at e
  | cons x later => exact h later o p earlier (List.cons.inj e).2

theorem Owned.free {log : List HeapEvent} (h : Owned log) {heap ptr size : ℕ}
    (hm : HeapEvent.malloc heap ptr size ∈ log) : Owned (.free heap ptr :: log) := by
  intro later o p earlier e
  cases later with
  | nil =>
    obtain ⟨e₁, rfl⟩ := List.cons.inj e
    obtain ⟨rfl, rfl⟩ := HeapEvent.free.inj e₁
    exact ⟨size, hm⟩
  | cons x later => exact h later o p earlier (List.cons.inj e).2

/-- The blocks of a heap that are handed out, with the sizes that were asked for. -/
def liveBlocks (heap : ℕ) : List HeapEvent → List (ℕ × ℕ)
  | [] => []
  | .malloc o ptr size :: log =>
    if o = heap then (ptr, size) :: liveBlocks heap log else liveBlocks heap log
  | .free o ptr :: log =>
    if o = heap then (liveBlocks heap log).eraseP (fun x => x.1 = ptr) else liveBlocks heap log

theorem malloc_mem_of_live {heap : ℕ} {x : ℕ × ℕ} {log : List HeapEvent}
    (h : x ∈ liveBlocks heap log) : HeapEvent.malloc heap x.1 x.2 ∈ log := by
  induction log with
  | nil => exact absurd h List.not_mem_nil
  | cons e log ih =>
    cases e with
    | malloc o ptr size =>
      rw [liveBlocks] at h
      split_ifs at h with ho
      · rcases List.mem_cons.mp h with rfl | h
        · rw [ho]; exact List.mem_cons_self
        · exact List.mem_cons_of_mem _ (ih h)
      · exact List.mem_cons_of_mem _ (ih h)
    | free o ptr =>
      rw [liveBlocks] at h
      split_ifs at h
      · exact List.mem_cons_of_mem _ (ih (List.mem_of_mem_eraseP h))
      · exact List.mem_cons_of_mem _ (ih h)

/-- The machine. -/
structure Kernel where
  /-- The lower half of each address space. -/
  low : ℕ → Mem
  /-- The upper half, the same in all of them. -/
  high : Mem
  /-- `kernel_data->free_list`, and `data->free_list` of each process. -/
  freeList : ℕ → ℕ
  /-- `data->is_kernel` in each address space; `none` where the page of `data` is not mapped. -/
  isKernel : ℕ → Option Bool
  /-- The loaded address space. -/
  space : ℕ
  /-- The pid of `current_process`. -/
  currentPid : ℕ
  highestPid : ℕ
  /-- The pointer `file_table`. -/
  fileTable : ℕ
  drive : Drive
  log : List HeapEvent
  /-- Something was stored behind the end of its block. What that does to the block there is not
  followed. -/
  spilled : Bool

/-- Code that runs on the machine. -/
abbrev Sys := Code Kernel

/-- The region of a heap. -/
def region (heap : ℕ) : Region := if heap = 0 then kernelRegion else userRegion

namespace Kernel

/-- Where the upper half starts. -/
def half : ℕ := 0x8000000000000000

/-- The memory as the loaded address space shows it. -/
def view (s : Kernel) : Mem := fun a => if a < half then s.low s.space a else s.high a

/-- The heap `malloc` and `free` work on; `none` where reading `data` faults. -/
def heapInUse (s : Kernel) : Option ℕ :=
  (s.isKernel s.space).map fun b => if b then 0 else s.space

/-- What an operation on a heap leaves, written through the loaded address space. -/
def store (s : Kernel) (heap : ℕ) (h : Heap) : Kernel :=
  { s with
    low := Function.update s.low s.space fun a => if a < half then h.mem a else s.low s.space a
    high := fun a => if a < half then s.high a else h.mem a
    freeList := Function.update s.freeList heap h.freeList }

end Kernel

/-! ## The allocator's functions -/

/-- A list without a cycle has fewer blocks than a heap has words: past this many rounds, a loop of
the allocator does not end. -/
def loopBound : ℕ := 0x100000 / 8

/-- `malloc_internal` on a heap. -/
def mallocFrom (heap size : ℕ) : Sys ℕ := do
  let s ← get
  match mallocInternal loopBound ⟨s.view, s.freeList heap⟩ size with
  | none => failure
  | some (h, ptr) =>
    set { s.store heap h with log := if ptr = 0 then s.log else .malloc heap ptr size :: s.log }
    return ptr

/-- `free_internal` on a heap. -/
def freeTo (heap ptr : ℕ) : Sys Unit := do
  let s ← get
  match freeInternal loopBound ⟨s.view, s.freeList heap⟩ ptr with
  | none => failure
  | some h =>
    set { s.store heap h with log := if ptr = 0 then s.log else .free heap ptr :: s.log }

/-- `malloc`. -/
def malloc (size : ℕ) : Sys ℕ := do
  let s ← get
  match s.heapInUse with
  | none => failure
  | some heap => mallocFrom heap size

/-- `malloc_kernel`. -/
def mallocKernel (size : ℕ) : Sys ℕ := mallocFrom 0 size

/-- `free`. -/
def free (ptr : ℕ) : Sys Unit := do
  let s ← get
  match s.heapInUse with
  | none => failure
  | some heap => freeTo heap ptr

/-- `free_kernel`. -/
def freeKernel (ptr : ℕ) : Sys Unit := freeTo 0 ptr

/-- The code reads or writes at `ptr` if `c` holds: a page fault on a null pointer. -/
def access (ptr : ℕ) (c : Prop) [Decidable c] : Sys Unit :=
  if ptr = 0 ∧ c then failure else pure ()

/-- The code stores `size` bytes from the start of a block of `block` bytes. -/
def fill (block size : ℕ) : Sys Unit :=
  modify fun s => { s with spilled := s.spilled || decide (block < size) }

/-- `vmm_set_PML4` and `vmm_load_cpu`. -/
def setSpace (space : ℕ) : Sys Unit := modify fun s => { s with space := space }

/-! ## The invariant -/

namespace Kernel

/-- The half of the memory a heap lies in. -/
def home (s : Kernel) (heap : ℕ) : Mem := if heap = 0 then s.high else s.low heap

/-- A heap with its allocations in progress. -/
def heapState (s : Kernel) (heap : ℕ) : HeapState :=
  ⟨⟨s.home heap, s.freeList heap⟩, liveBlocks heap s.log⟩

end Kernel

/-- Every heap that is set up satisfies the allocator's invariant, and the history is as wanted. -/
structure KernelOk (s : Kernel) : Prop where
  kernel : s.isKernel 0 = some true
  process : ∀ p, p ≠ 0 → s.isKernel p ≠ some true
  heaps : ∀ o, s.isKernel o ≠ none → ∃ free, HeapOk (region o) (s.heapState o) free
  owned : Owned s.log

variable {s : Kernel} {o n p sp t : ℕ} {h : Heap}

theorem KernelOk.heapInUse (hs : KernelOk s) (e : s.heapInUse = some o) :
    o = s.space ∧ s.isKernel o ≠ none := by
  obtain ⟨b, hb, rfl⟩ := Option.map_eq_some_iff.mp e
  by_cases h0 : s.space = 0
  · rw [h0, hs.kernel] at hb
    obtain rfl := Option.some.inj hb
    rw [if_pos rfl, hs.kernel]
    exact ⟨h0.symm, by simp⟩
  · have hp := hs.process _ h0
    rw [hb] at hp
    rw [if_neg (by simpa using hp), hb]
    exact ⟨rfl, by simp⟩

section Store

variable {a : ℕ}

theorem half_le_of_kernel (h₁ : (region 0).base ≤ a) : ¬ a < Kernel.half := by
  have : (region 0).base = 0xffffc90000000000 := rfl
  unfold Kernel.half
  omega

theorem lt_half_of_user (ho : o ≠ 0) (h₂ : a < (region o).base + (region o).size) :
    a < Kernel.half := by
  rw [region, if_neg ho] at h₂
  have h₃ : userRegion.base = 0x0000555555554000 := rfl
  have h₄ : userRegion.size = 0x100000 := rfl
  unfold Kernel.half
  omega

theorem view_eq_home (ho : o = 0 ∨ o = s.space) (h₁ : (region o).base ≤ a)
    (h₂ : a < (region o).base + (region o).size) : s.view a = s.home o a := by
  unfold Kernel.view Kernel.home
  by_cases h0 : o = 0
  · subst h0
    rw [if_neg (half_le_of_kernel h₁), if_pos rfl]
  · rw [if_pos (lt_half_of_user h0 h₂), if_neg h0, ho.resolve_left h0]

theorem home_store_self (ho : o = 0 ∨ o = s.space) (h₁ : (region o).base ≤ a)
    (h₂ : a < (region o).base + (region o).size) : (s.store o h).home o a = h.mem a := by
  unfold Kernel.store Kernel.home
  by_cases h0 : o = 0
  · subst h0
    rw [if_pos rfl]
    exact if_neg (half_le_of_kernel h₁)
  · obtain rfl := ho.resolve_left h0
    simp only [if_neg h0, Function.update_self]
    exact if_pos (lt_half_of_user h0 h₂)

theorem home_store_of_ne {o' : ℕ} (ho : o = 0 ∨ o = s.space) (hne : o' ≠ o)
    (hout : ∀ a, a < (region o).base ∨ (region o).base + (region o).size ≤ a → h.mem a = s.view a)
    (h₁ : (region o').base ≤ a) (h₂ : a < (region o').base + (region o').size) :
    (s.store o h).home o' a = s.home o' a := by
  unfold Kernel.store Kernel.home
  have hk : (region 0).base = 0xffffc90000000000 := rfl
  by_cases h0 : o' = 0
  · subst h0
    have ha := half_le_of_kernel h₁
    rw [if_pos rfl, if_pos rfl]
    show (if a < Kernel.half then s.high a else h.mem a) = s.high a
    rw [if_neg ha, hout a (Or.inr ?_), Kernel.view, if_neg ha]
    by_contra hlt
    exact ha (lt_half_of_user (Ne.symm hne) (by omega))
  · have ha := lt_half_of_user h0 h₂
    rw [if_neg h0, if_neg h0]
    show Function.update s.low s.space _ o' a = s.low o' a
    by_cases hsp : o' = s.space
    · subst hsp
      obtain rfl : o = 0 := ho.resolve_right (Ne.symm hne)
      have hlt : a < 0x8000000000000000 := ha
      rw [Function.update_self, if_pos ha, hout a (Or.inl (by omega)), Kernel.view, if_pos ha]
    · rw [Function.update_of_ne hsp]

end Store

theorem KernelOk.view (hs : KernelOk s) (ho : o = 0 ∨ o = s.space) (hk : s.isKernel o ≠ none) :
    ∃ free, HeapOk (region o) ⟨⟨s.view, s.freeList o⟩, liveBlocks o s.log⟩ free := by
  obtain ⟨free, hf⟩ := hs.heaps o hk
  exact ⟨free, hf.congr fun a h₁ h₂ => view_eq_home ho h₁ h₂⟩

theorem HeapOk.stored {free : List Blk} (ho : o = 0 ∨ o = s.space) {log : List HeapEvent}
    (hf : HeapOk (region o) ⟨h, liveBlocks o log⟩ free) :
    HeapOk (region o) ({ s.store o h with log := log }.heapState o) free := by
  have hc := hf.congr fun a h₁ h₂ => home_store_self (h := h) ho h₁ h₂
  show HeapOk (region o) ⟨⟨_, Function.update s.freeList o h.freeList o⟩, _⟩ free
  rw [Function.update_self]
  exact hc

/-- **Frame rule**: an operation that is right for its own heap is right for the machine. -/
theorem KernelOk.store (hs : KernelOk s) (ho : o = 0 ∨ o = s.space) {log : List HeapEvent}
    (hheap : ∃ free, HeapOk (region o) ⟨h, liveBlocks o log⟩ free)
    (hout : ∀ a, a < (region o).base ∨ (region o).base + (region o).size ≤ a → h.mem a = s.view a)
    (hlog : ∀ o', o' ≠ o → liveBlocks o' log = liveBlocks o' s.log) (howned : Owned log) :
    KernelOk { s.store o h with log := log } where
  kernel := hs.kernel
  process := hs.process
  owned := howned
  heaps o' hk := by
    by_cases hne : o' = o
    · subst hne
      obtain ⟨free, hf⟩ := hheap
      exact ⟨free, hf.stored ho⟩
    · obtain ⟨free, hf⟩ := hs.heaps o' hk
      have hc := hf.congr fun a h₁ h₂ => home_store_of_ne (h := h) ho hne hout h₁ h₂
      refine ⟨free, ?_⟩
      show HeapOk (region o') ⟨⟨_, Function.update s.freeList o h.freeList o'⟩, liveBlocks o' log⟩ free
      rw [Function.update_of_ne hne, hlog o' hne]
      exact hc

theorem KernelOk.setData (hs : KernelOk s) (hp : p ≠ 0) {b : Option Bool} (hb : b ≠ some true)
    (hheap : b ≠ none → ∃ free, HeapOk (region p) (s.heapState p) free) :
    KernelOk { s with isKernel := Function.update s.isKernel p b } where
  kernel := (Function.update_of_ne (Ne.symm hp) b s.isKernel).trans hs.kernel
  process q hq := by
    show Function.update s.isKernel p b q ≠ some true
    by_cases he : q = p
    · rw [he, Function.update_self]
      exact hb
    · rw [Function.update_of_ne he]
      exact hs.process q hq
  heaps o hk := by
    have hk : Function.update s.isKernel p b o ≠ none := hk
    by_cases he : o = p
    · subst he
      rw [Function.update_self] at hk
      exact hheap hk
    · rw [Function.update_of_ne he] at hk
      exact hs.heaps o hk
  owned := hs.owned

theorem KernelOk.malloc (hs : KernelOk s) (ho : o = 0 ∨ o = s.space) (hk : s.isKernel o ≠ none)
    (hn : n ≤ 2 ^ 64 - 24)
    (e : mallocInternal loopBound ⟨s.view, s.freeList o⟩ n = some (h, p)) :
    KernelOk { s.store o h with log := if p = 0 then s.log else .malloc o p n :: s.log } ∧
      (p ≠ 0 → p ∉ (liveBlocks o s.log).map Prod.fst) := by
  obtain ⟨free, hf⟩ := hs.view ho hk
  by_cases hn0 : n = 0
  · obtain ⟨rfl, rfl⟩ : ⟨s.view, s.freeList o⟩ = h ∧ 0 = p := by
      simpa [mallocInternal, hn0] using e
    refine ⟨?_, fun h0 => absurd rfl h0⟩
    rw [if_pos rfl]
    exact hs.store ho ⟨free, hf⟩ (fun _ _ => rfl) (fun _ _ => rfl) hs.owned
  have h₁ : 1 ≤ n := Nat.one_le_iff_ne_zero.mpr hn0
  obtain ⟨free', hf', -⟩ := hf.malloc h₁ hn e
  have hout : ∀ a, a < (region o).base ∨ (region o).base + (region o).size ≤ a →
      h.mem a = s.view a := fun a ha => hf.malloc_outside h₁ hn e ha
  by_cases hp : p = 0
  · rw [if_pos hp] at hf' ⊢
    exact ⟨hs.store ho ⟨free', hf'⟩ hout (fun _ _ => rfl) hs.owned, fun h0 => absurd hp h0⟩
  · rw [if_neg hp] at hf' ⊢
    have hlive : liveBlocks o (.malloc o p n :: s.log) = (p, n) :: liveBlocks o s.log := if_pos rfl
    refine ⟨hs.store ho ⟨free', hlive ▸ hf'⟩ hout (fun o' hne => if_neg (Ne.symm hne))
      (hs.owned.malloc o p n), fun _ => ?_⟩
    exact (List.nodup_cons.mp hf'.nodup).1

theorem eraseP_eq_erase {x : ℕ × ℕ} {l : List (ℕ × ℕ)} (hd : (l.map Prod.fst).Nodup) (hx : x ∈ l) :
    l.eraseP (fun y => y.1 = x.1) = l.erase x := by
  induction l with
  | nil => rfl
  | cons y l ih =>
    obtain ⟨hy, hd⟩ := List.nodup_cons.mp hd
    by_cases hyx : y = x
    · subst hyx
      simp
    · have hxl := (List.mem_cons.mp hx).resolve_left (Ne.symm hyx)
      have hne : y.1 ≠ x.1 := fun e => hy (e ▸ List.mem_map_of_mem hxl)
      rw [List.eraseP_cons_of_neg (by simpa using hne), List.erase_cons_tail (by simpa using hyx),
        ih hd hxl]

theorem KernelOk.free (hs : KernelOk s) (ho : o = 0 ∨ o = s.space) (hk : s.isKernel o ≠ none)
    (hp : p ≠ 0 → p ∈ (liveBlocks o s.log).map Prod.fst)
    (e : freeInternal loopBound ⟨s.view, s.freeList o⟩ p = some h) :
    KernelOk { s.store o h with log := if p = 0 then s.log else .free o p :: s.log } := by
  obtain ⟨free, hf⟩ := hs.view ho hk
  by_cases hp0 : p = 0
  · obtain rfl : ⟨s.view, s.freeList o⟩ = h := by simpa [freeInternal, hp0] using e
    rw [if_pos hp0]
    exact hs.store ho ⟨free, hf⟩ (fun _ _ => rfl) (fun _ _ => rfl) hs.owned
  obtain ⟨x, hx, rfl⟩ := List.mem_map.mp (hp hp0)
  have hf' := hf.release hx e
  have hlive : liveBlocks o (.free o x.1 :: s.log) = (liveBlocks o s.log).erase x := by
    rw [liveBlocks, if_pos rfl]
    exact eraseP_eq_erase hf.nodup hx
  rw [if_neg hp0]
  exact hs.store ho ⟨_, hlive ▸ hf'⟩ (fun a ha => hf.release_outside hx e ha)
    (fun o' hne => if_neg (Ne.symm hne)) (hs.owned.free (malloc_mem_of_live hx))

/-! ## Blocks held by the running code -/

/-- **The running code holds the blocks `held`**, each with its heap: those that are not null are
handed out, and no two are the same. `file_table` is `t`. -/
structure Keeps (t : ℕ) (held : List (ℕ × ℕ)) (s : Kernel) : Prop where
  ok : KernelOk s
  unused : ∀ o, s.highestPid < o → liveBlocks o s.log = []
  current_le : s.currentPid ≤ s.highestPid
  table : s.fileTable = t
  live : ∀ b ∈ held, b.2 ≠ 0 → b.2 ∈ (liveBlocks b.1 s.log).map Prod.fst
  nodup : (held.filter fun b => b.2 ≠ 0).Nodup

/-- The same in the address space `sp` of a process. -/
structure Holds (sp t : ℕ) (held : List (ℕ × ℕ)) (s : Kernel) : Prop extends Keeps t held s where
  space : s.space = sp
  space_le : sp ≤ s.highestPid

variable {held held' : List (ℕ × ℕ)}

theorem Holds.perm (h : Holds sp t held s) (e : held.Perm held') : Holds sp t held' s :=
  { h with
    live := fun b hb => h.live b (e.mem_iff.mpr hb)
    nodup := ((e.filter _).nodup_iff).mp h.nodup }

theorem Holds.swap {b c : ℕ × ℕ} (h : Holds sp t (b :: c :: held) s) :
    Holds sp t (c :: b :: held) s :=
  h.perm (List.Perm.swap _ _ _)

theorem Holds.leak {b : ℕ × ℕ} (h : Holds sp t (b :: held) s) : Holds sp t held s :=
  { h with
    live := fun c hc => h.live c (List.mem_cons_of_mem _ hc)
    nodup := h.nodup.sublist ((List.sublist_cons_self _ _).filter _) }

theorem Holds.null (h : Holds sp t held s) (o : ℕ) : Holds sp t ((o, 0) :: held) s :=
  { h with
    live := fun b hb hb0 => by
      rcases List.mem_cons.mp hb with rfl | hb
      · exact absurd rfl hb0
      · exact h.live b hb hb0
    nodup := by simpa using h.nodup }

theorem Holds.setDrive (h : Holds sp t held s) (d : Drive) :
    Holds sp t held { s with drive := d } :=
  ⟨⟨⟨h.ok.kernel, h.ok.process, h.ok.heaps, h.ok.owned⟩, h.unused, h.current_le, h.table, h.live,
    h.nodup⟩, h.space, h.space_le⟩

theorem Holds.setSpilled (h : Holds sp t held s) (b : Bool) :
    Holds sp t held { s with spilled := b } :=
  ⟨⟨⟨h.ok.kernel, h.ok.process, h.ok.heaps, h.ok.owned⟩, h.unused, h.current_le, h.table, h.live,
    h.nodup⟩, h.space, h.space_le⟩

theorem Holds.setTable (h : Holds sp t held s) (t' : ℕ) :
    Holds sp t' held { s with fileTable := t' } :=
  ⟨⟨⟨h.ok.kernel, h.ok.process, h.ok.heaps, h.ok.owned⟩, h.unused, h.current_le, rfl, h.live,
    h.nodup⟩, h.space, h.space_le⟩

theorem Keeps.setSpace (h : Keeps t held s) {sp' : ℕ} (hsp : sp' ≤ s.highestPid) :
    Holds sp' t held { s with space := sp' } :=
  ⟨⟨⟨h.ok.kernel, h.ok.process, h.ok.heaps, h.ok.owned⟩, h.unused, h.current_le, h.table, h.live,
    h.nodup⟩, rfl, hsp⟩

theorem Holds.malloc (hs : Holds sp t held s) (ho : o = 0 ∨ o = sp) (hk : s.isKernel o ≠ none)
    (hn : n ≤ 2 ^ 64 - 24) (e : mallocInternal loopBound ⟨s.view, s.freeList o⟩ n = some (h, p)) :
    Holds sp t ((o, p) :: held)
      { s.store o h with log := if p = 0 then s.log else .malloc o p n :: s.log } := by
  obtain ⟨hok, hfresh⟩ := hs.ok.malloc (hs.space ▸ ho) hk hn e
  by_cases hp : p = 0
  · rw [if_pos hp] at hok ⊢
    subst hp
    exact Holds.null ⟨⟨hok, hs.unused, hs.current_le, hs.table, hs.live, hs.nodup⟩, hs.space,
      hs.space_le⟩ o
  rw [if_neg hp] at hok ⊢
  have hmem : ∀ o' q, q ∈ (liveBlocks o' s.log).map Prod.fst →
      q ∈ (liveBlocks o' (.malloc o p n :: s.log)).map Prod.fst := fun o' q hq => by
    rw [liveBlocks]
    split_ifs
    · exact List.mem_cons_of_mem _ hq
    · exact hq
  refine ⟨⟨hok, fun o' ho' => ?_, hs.current_le, hs.table, fun b hb hb0 => ?_, ?_⟩, hs.space,
    hs.space_le⟩
  · have hne : o ≠ o' := by
      have := hs.space_le
      have ho' : s.highestPid < o' := ho'
      rcases ho with rfl | rfl <;> omega
    exact (if_neg hne).trans (hs.unused o' ho')
  · rcases List.mem_cons.mp hb with rfl | hb
    · simp [liveBlocks]
    · exact hmem _ _ (hs.live b hb hb0)
  · rw [List.filter_cons_of_pos (by simpa using hp)]
    refine List.nodup_cons.mpr ⟨fun hb => ?_, hs.nodup⟩
    exact hfresh hp (hs.live _ (List.mem_of_mem_filter hb) hp)

theorem Holds.free (hs : Holds sp t ((o, p) :: held) s) (ho : o = 0 ∨ o = sp)
    (hk : s.isKernel o ≠ none)
    (e : freeInternal loopBound ⟨s.view, s.freeList o⟩ p = some h) :
    Holds sp t held { s.store o h with log := if p = 0 then s.log else .free o p :: s.log } := by
  have hok := hs.ok.free (hs.space ▸ ho) hk (hs.live (o, p) List.mem_cons_self) e
  have hl := hs.leak
  by_cases hp : p = 0
  · rw [if_pos hp] at hok ⊢
    exact ⟨⟨hok, hs.unused, hs.current_le, hs.table, hl.live, hl.nodup⟩, hs.space, hs.space_le⟩
  rw [if_neg hp] at hok ⊢
  refine ⟨⟨hok, fun o' ho' => ?_, hs.current_le, hs.table, fun b hb hb0 => ?_, hl.nodup⟩,
    hs.space, hs.space_le⟩
  · rw [liveBlocks, hs.unused o' ho']
    split_ifs <;> rfl
  · have hb' := hl.live b hb hb0
    rw [liveBlocks]
    split_ifs with hbo
    · obtain ⟨x, hx, hxb⟩ := List.mem_map.mp hb'
      refine List.mem_map.mpr ⟨x, (List.mem_eraseP_of_neg ?_).mpr hx, hxb⟩
      -- the freed block is in the list of those held once
      have hnd := hs.nodup
      rw [List.filter_cons_of_pos (by simpa using hp)] at hnd
      have hnot := (List.nodup_cons.mp hnd).1
      simp only [decide_eq_true_eq]
      rintro rfl
      refine hnot (List.mem_filter.mpr ⟨?_, by simpa using hp⟩)
      rwa [show (o, x.1) = b from Prod.ext hbo hxb]
    · exact hb'

/-! ## Rules -/

section Rules

variable {F P : Kernel → Prop} {R : ℕ → Kernel → Prop} {Q : Unit → Kernel → Prop}

theorem mallocFrom_rule (hstop : ∀ s, P s → F s)
    (hret : ∀ s h p, P s → mallocInternal loopBound ⟨s.view, s.freeList o⟩ n = some (h, p) →
      R p { s.store o h with log := if p = 0 then s.log else .malloc o p n :: s.log }) :
    Triple F P (mallocFrom o n) R := by
  refine Triple.get fun s₀ => ?_
  split
  · exact Triple.stop fun s hs => hstop s hs.2
  · rename_i h p e
    rintro s ⟨rfl, hs⟩
    exact hret s h p hs e

theorem freeTo_rule (hstop : ∀ s, P s → F s)
    (hret : ∀ s h, P s → freeInternal loopBound ⟨s.view, s.freeList o⟩ p = some h →
      Q () { s.store o h with log := if p = 0 then s.log else .free o p :: s.log }) :
    Triple F P (freeTo o p) Q := by
  refine Triple.get fun s₀ => ?_
  split
  · exact Triple.stop fun s hs => hstop s hs.2
  · rename_i h e
    rintro s ⟨rfl, hs⟩
    exact hret s h hs e

/-- **What `malloc` can do**: stop, or take a block from the heap in use. -/
theorem malloc_rule (hstop : ∀ s, P s → F s)
    (hret : ∀ s o h p, P s → s.heapInUse = some o →
      mallocInternal loopBound ⟨s.view, s.freeList o⟩ n = some (h, p) →
        R p { s.store o h with log := if p = 0 then s.log else .malloc o p n :: s.log }) :
    Triple F P (malloc n) R := by
  refine Triple.get fun s₀ => ?_
  split
  · exact Triple.stop fun s hs => hstop s hs.2
  · rename_i o e
    refine mallocFrom_rule (fun s hs => hstop s hs.2) ?_
    rintro s h p ⟨rfl, hs⟩ em
    exact hret s o h p hs e em

/-- **What `free` can do**: stop, or give the block to the heap in use. -/
theorem free_rule (hstop : ∀ s, P s → F s)
    (hret : ∀ s o h, P s → s.heapInUse = some o →
      freeInternal loopBound ⟨s.view, s.freeList o⟩ p = some h →
        Q () { s.store o h with log := if p = 0 then s.log else .free o p :: s.log }) :
    Triple F P (free p) Q := by
  refine Triple.get fun s₀ => ?_
  split
  · exact Triple.stop fun s hs => hstop s hs.2
  · rename_i o e
    refine freeTo_rule (fun s hs => hstop s hs.2) ?_
    rintro s h ⟨rfl, hs⟩ em
    exact hret s o h hs e em

end Rules

/-- **`malloc` gives a block of the heap of the loaded address space.** -/
theorem malloc_spec (hn : n ≤ 2 ^ 64 - 24) :
    Triple KernelOk (Holds sp t held) (malloc n) fun p => Holds sp t ((sp, p) :: held) := by
  refine malloc_rule (fun s hs => hs.ok) fun s o h p hs e em => ?_
  obtain ⟨ho, hk⟩ := hs.ok.heapInUse e
  obtain rfl := ho.trans hs.space
  exact hs.malloc (.inr rfl) hk hn em

/-- **`free` takes back a block of the heap of the loaded address space.** -/
theorem free_spec :
    Triple KernelOk (Holds sp t ((sp, p) :: held)) (free p) fun _ => Holds sp t held := by
  refine free_rule (fun s hs => hs.ok) fun s o h hs e em => ?_
  obtain ⟨ho, hk⟩ := hs.ok.heapInUse e
  obtain rfl := ho.trans hs.space
  exact hs.free (.inr rfl) hk em

theorem malloc_stops :
    Triple KernelOk (fun s => KernelOk s ∧ s.isKernel s.space = none) (malloc n)
      fun _ _ => False := by
  refine malloc_rule (fun s hs => hs.1) fun s o h p ⟨hs, hnone⟩ e _ => ?_
  obtain ⟨rfl, hk⟩ := hs.heapInUse e
  exact hk hnone

theorem mallocKernel_spec (hn : n ≤ 2 ^ 64 - 24) :
    Triple KernelOk (Holds sp t held) (mallocKernel n) fun p => Holds sp t ((0, p) :: held) :=
  mallocFrom_rule (fun s hs => hs.ok) fun s h p hs e =>
    hs.malloc (.inl rfl) (by simp [hs.ok.kernel]) hn e

theorem freeKernel_spec :
    Triple KernelOk (Holds sp t ((0, p) :: held)) (freeKernel p) fun _ => Holds sp t held :=
  freeTo_rule (fun s hs => hs.ok) fun s h hs e => hs.free (.inl rfl) (by simp [hs.ok.kernel]) e

theorem access_keeps {F P : Kernel → Prop} {c : Prop} [Decidable c] (h : ∀ s, P s → F s) :
    Triple F P (access p c) fun _ => P :=
  Triple.ite (fun _ => Triple.stop h) fun _ => Triple.ret fun _ hs => hs

theorem access_spec {c : Prop} [Decidable c] :
    Triple KernelOk (Holds sp t held) (access p c) fun _ => Holds sp t held :=
  access_keeps fun _ hs => hs.ok

theorem malloc_drive {d : Drive} :
    Triple (fun _ => True) (fun s => s.drive = d) (malloc n) fun _ s => s.drive = d :=
  malloc_rule (fun _ _ => trivial) fun _ _ _ _ hs _ _ => hs

end EitanOS
