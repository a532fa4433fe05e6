import EitanOS.Process.Loader

/-!
# Room for a message

What `malloc` and `free` do to the free list of a heap, and what `log_error` asks of it: `str_concats`
takes a block for each longer string before it gives the last one back.

* `Charted`: the heap in use, with its blocks and its free list.
* **`malloc_fits`**, `malloc_null`, `free_charted`: first fit and insertion, exactly.
* **`logError_returns_iff`**: `log_error` returns if and only if there is a heap and its free list fits
  the strings.
* `messageFits_of_hasRoom`: a free block of 1000 bytes is enough.
-/

namespace EitanOS

open Blocks FreeList Prog

/-- `malloc` and `free` work on heap `o`, with the blocks `used` and the free list `free`. -/
structure Charted (o : ℕ) (used free : List Blk) (s : Kernel) : Prop where
  inUse : s.heapInUse = some o
  heap : HeapOk (region o) ⟨⟨s.view, s.freeList o⟩, liveBlocks o s.log⟩ free
  used : ((liveBlocks o s.log).map (liveBlk s.view)).Perm used

variable {s : Kernel} {o k p : ℕ} {b : Blk} {used used' free free' : List Blk} {h : Heap}

theorem Charted.perm (hs : Charted o used free s) (e : used.Perm used') : Charted o used' free s :=
  ⟨hs.inUse, hs.heap, hs.used.trans e⟩

theorem KernelOk.charted (hs : KernelOk s) (e : s.heapInUse = some o) :
    ∃ used free, Charted o used free s := by
  obtain ⟨free, hf⟩ := hs.view (.inr (hs.heapInUse e).1) (hs.heapInUse e).2
  exact ⟨_, free, e, hf, .refl _⟩

theorem view_store (s : Kernel) (o : ℕ) (h : Heap) : (s.store o h).view = h.mem := by
  funext a
  unfold Kernel.view Kernel.store
  dsimp only
  rw [Function.update_self]
  split_ifs
  · rfl
  · rfl

theorem charted_store {log : List HeapEvent} (hs : s.heapInUse = some o)
    (hf : HeapOk (region o) ⟨h, liveBlocks o log⟩ free)
    (hu : ((liveBlocks o log).map (liveBlk h.mem)).Perm used) :
    Charted o used free { s.store o h with log := log } := by
  have hview : ({ s.store o h with log := log } : Kernel).view = h.mem := view_store s o h
  refine ⟨hs, ?_, ?_⟩
  · rw [hview]
    show HeapOk (region o) ⟨⟨h.mem, Function.update s.freeList o h.freeList o⟩, _⟩ free
    rw [Function.update_self]
    exact hf
  · rw [hview]
    exact hu

theorem length_lt_loopBound {t : HeapState} (hf : HeapOk (region o) t free) :
    free.length < loopBound := by
  have hlen := hf.spaced.length_le (fun b hb => (hf.shape b (List.mem_append_left _ hb)).2.2)
    fun b hb => hf.tiles.inside b (List.mem_append_left _ hb)
  have hsize : (region o).size = 0x100000 := by
    unfold region
    split_ifs
    · rfl
    · rfl
  rw [Nat.add_sub_cancel_left, hsize] at hlen
  unfold loopBound
  omega

/-! ## The allocator's functions -/

theorem exec_malloc (hs : Charted o used free s) (hk : 1 ≤ k) (hk' : k ≤ 2 ^ 64 - 24) :
    ∃ p s', exec (malloc k) s = (some p, s') ∧
      ((p = 0 ∧ firstFit 24 (alignUp (k + 16)) free = none ∧ Charted o used free s') ∨
        ∃ b free', firstFit 24 (alignUp (k + 16)) free = some (b, free') ∧ p = b.1 + 16 ∧
          Charted o (b :: used) free' s') := by
  obtain ⟨⟨h, p⟩, e⟩ :=
    Option.isSome_iff_exists.1 ((hs.heap.returns (length_lt_loopBound hs.heap)).1 k)
  have hexec : exec (malloc k) s =
      (some p, { s.store o h with log := if p = 0 then s.log else .malloc o p k :: s.log }) := by
    unfold malloc mallocFrom
    rw [exec_get_bind, hs.inUse]
    dsimp only
    rw [exec_get_bind, e]
    rfl
  refine ⟨p, _, hexec, ?_⟩
  obtain ⟨free', hf, ⟨rfl, hfit, rfl, rfl⟩ | ⟨b, hfit, rfl, hblocks⟩⟩ := hs.heap.malloc hk hk' e
  · exact .inl ⟨rfl, hfit, charted_store hs.inUse hs.heap hs.used⟩
  · have hp : b.1 + 16 ≠ 0 := Nat.succ_ne_zero _
    have hlive : liveBlocks o (.malloc o (b.1 + 16) k :: s.log) =
        (b.1 + 16, k) :: liveBlocks o s.log := if_pos rfl
    rw [if_neg hp] at hf ⊢
    refine .inr ⟨b, free', hfit, rfl, charted_store hs.inUse (hlive ▸ hf) ?_⟩
    rw [hlive, hblocks]
    exact hs.used.cons b

/-- **`malloc` takes the first block that fits.** -/
theorem malloc_fits {F : Kernel → Prop} (hk : 1 ≤ k) (hk' : k ≤ 2 ^ 64 - 24)
    (hfit : firstFit 24 (alignUp (k + 16)) free = some (b, free')) :
    Triple F (Charted o used free) (malloc k)
      fun p s => p = b.1 + 16 ∧ Charted o (b :: used) free' s := by
  intro s hs
  obtain ⟨p, s', e, ⟨-, hnone, -⟩ | ⟨c, l, hsome, hp, hs'⟩⟩ := exec_malloc hs hk hk'
  · rw [hfit] at hnone
    cases hnone
  · rw [hfit] at hsome
    cases hsome
    rw [e]
    exact ⟨hp, hs'⟩

theorem malloc_null {F : Kernel → Prop} (hk : 1 ≤ k) (hk' : k ≤ 2 ^ 64 - 24)
    (hfit : firstFit 24 (alignUp (k + 16)) free = none) :
    Triple F (Charted o used free) (malloc k) fun p s => p = 0 ∧ Charted o used free s := by
  intro s hs
  obtain ⟨p, s', e, ⟨hp, -, hs'⟩ | ⟨c, l, hsome, -⟩⟩ := exec_malloc hs hk hk'
  · rw [e]
    exact ⟨hp, hs'⟩
  · rw [hfit] at hsome
    cases hsome

/-- **`free` inserts the block.** -/
theorem free_charted {F : Kernel → Prop} :
    Triple F (Charted o (b :: used) free) (EitanOS.free (b.1 + 16))
      fun _ => Charted o used (insertJoin b free) := by
  intro s hs
  obtain ⟨x, hx, hb⟩ := List.mem_map.1 (hs.used.mem_iff.2 List.mem_cons_self)
  have hptr : b.1 + 16 = x.1 := by
    rw [← hb]
    exact (hs.heap.ptr hx).symm
  obtain ⟨h, e⟩ := Option.isSome_iff_exists.1
    ((hs.heap.returns (length_lt_loopBound hs.heap)).2 (b.1 + 16))
  have hexec : exec (EitanOS.free (b.1 + 16)) s =
      (some (), { s.store o h with log := .free o (b.1 + 16) :: s.log }) := by
    unfold EitanOS.free freeTo
    rw [exec_get_bind, hs.inUse]
    dsimp only
    rw [exec_get_bind, e]
    rfl
  rw [hptr] at e hexec
  have hf := hs.heap.release hx e
  have hlive : liveBlocks o (.free o x.1 :: s.log) = (liveBlocks o s.log).erase x := by
    rw [liveBlocks, if_pos rfl]
    exact eraseP_eq_erase hs.heap.nodup hx
  rw [← hlive, show liveBlk _ x = b from hb] at hf
  rw [hptr, hexec]
  refine charted_store hs.inUse hf ?_
  rw [hlive, hs.heap.release_live hx e]
  -- the block is one of those in use
  have hperm := ((List.perm_cons_erase hx).map (liveBlk s.view)).symm.trans hs.used
  rw [List.map_cons, hb] at hperm
  exact hperm.cons_inv

theorem access_mapped {F P : Kernel → Prop} {c : Prop} [Decidable c] :
    Triple F P (access (p + 16) c) fun _ => P := by
  unfold access
  rw [if_neg fun h => Nat.succ_ne_zero _ h.1]
  exact Triple.ret fun _ hs => hs

/-! ## Messages -/

namespace Sys

/-- The free list has a block for each string that `str_concats` builds, from the string in block `b`
on. -/
def concatsFit : Blk → List Blk → ℕ → List String → Bool
  | _, _, _, [] => true
  | b, free, length, str :: strs =>
    match firstFit 24 (alignUp (length + str.length + 1 + 16)) free with
    | none => false
    | some (b', free') => concatsFit b' (insertJoin b free') (length + str.length) strs

/-- The free list has a block for each string that `log_error` builds. -/
def messageFits (msg : String) (free : List Blk) : Bool :=
  match firstFit 24 (alignUp (46 + 16)) free with
  | none => false
  | some (b, free') => concatsFit b free' 45 [msg, "\n"]

variable {msg : String} {strs : List String} {length : ℕ}

theorem strConcatsLoop_fits {F : Kernel → Prop} (hlen : length + (strs.map String.length).sum ≤ 1000)
    (hfit : concatsFit b free length strs = true) :
    Triple F (Charted o (b :: used) free) (strConcatsLoop (b.1 + 16) length strs)
      fun p s => ∃ c l, p = c.1 + 16 ∧ Charted o (c :: used) l s := by
  induction strs generalizing b free length with
  | nil => exact Triple.ret fun s hs => ⟨b, free, rfl, hs⟩
  | cons str strs ih =>
    rw [List.map_cons, List.sum_cons] at hlen
    rw [concatsFit] at hfit
    split at hfit
    · cases hfit
    · rename_i c free' e
      refine access_mapped.bind fun _ =>
        (malloc_fits (by omega) (by omega) e).bind fun temp => Triple.assume ?_
      rintro rfl
      refine (free_charted.pre fun _ hs => hs.perm (.swap _ _ _)).bind fun _ => ?_
      exact ih (by omega) hfit

theorem strConcatsLoop_null {P : Kernel → Prop} :
    Triple (fun _ => True) P (strConcatsLoop 0 length strs) fun p _ => p = 0 := by
  cases strs with
  | nil => exact Triple.ret fun _ _ => rfl
  | cons str strs => exact fun _ _ => True.intro

theorem strConcatsLoop_short (hlen : length + (strs.map String.length).sum ≤ 1000)
    (hfit : concatsFit b free length strs = false) :
    Triple (fun _ => True) (Charted o (b :: used) free) (strConcatsLoop (b.1 + 16) length strs)
      fun p _ => p = 0 := by
  induction strs generalizing b free length with
  | nil => cases hfit
  | cons str strs ih =>
    rw [List.map_cons, List.sum_cons] at hlen
    rw [concatsFit] at hfit
    refine access_mapped.bind fun _ => ?_
    split at hfit
    · rename_i e
      refine (malloc_null (by omega) (by omega) e).bind fun temp => Triple.assume ?_
      rintro rfl
      exact free_charted.bind fun _ => strConcatsLoop_null
    · rename_i c free' e
      refine (malloc_fits (by omega) (by omega) e).bind fun temp => Triple.assume ?_
      rintro rfl
      refine (free_charted.pre fun _ hs => hs.perm (.swap _ _ _)).bind fun _ => ?_
      exact ih (by omega) hfit

theorem logError_fits (hlen : msg.length ≤ 100) (hfit : messageFits msg free = true) :
    Triple (fun _ => False) (Charted o used free) (logError msg) fun _ _ => True := by
  have hsum := message_length hlen
  rw [messageFits] at hfit
  unfold logError strConcats
  rw [messageStart_length]
  split at hfit
  · cases hfit
  · rename_i b free' e
    refine Triple.bind (R := fun p s => ∃ c l, p = c.1 + 16 ∧ Charted o (c :: used) l s) ?_
      fun p => Triple.exists fun c => Triple.exists fun l => Triple.assume ?_
    · refine (malloc_fits (by decide) (by decide) e).bind fun temp => Triple.assume ?_
      rintro rfl
      exact access_mapped.bind fun _ => strConcatsLoop_fits (by omega) hfit
    · rintro rfl
      exact access_mapped.bind fun _ => free_charted.post fun _ _ _ => True.intro

theorem logError_short (hlen : msg.length ≤ 100) (hfit : messageFits msg free = false) :
    Triple (fun _ => True) (Charted o used free) (logError msg) fun _ _ => False := by
  have hsum := message_length hlen
  rw [messageFits] at hfit
  unfold logError strConcats
  rw [messageStart_length]
  refine Triple.bind (R := fun p _ => p = 0) ?_ fun p => ?_
  · split at hfit
    · rename_i e
      refine (malloc_null (by decide) (by decide) e).bind fun temp => Triple.assume ?_
      rintro rfl
      exact fun _ _ => True.intro
    · rename_i b free' e
      refine (malloc_fits (by decide) (by decide) e).bind fun temp => Triple.assume ?_
      rintro rfl
      exact access_mapped.bind fun _ => strConcatsLoop_short (by omega) hfit
  · rintro s rfl
    exact True.intro

end Sys

/-- There is a heap in the loaded address space, and its free list fits an error message. -/
def RoomForMessage (s : Kernel) (msg : String) : Prop :=
  ∃ o used free, Charted o used free s ∧ Sys.messageFits msg free = true

/-- **`log_error` returns if and only if its message can be built.** -/
theorem logError_returns_iff {msg : String} (hs : KernelOk s) (hlen : msg.length ≤ 100) :
    (exec (Sys.logError msg) s).1.isSome ↔ RoomForMessage s msg := by
  constructor
  · intro hsome
    cases hu : s.heapInUse with
    | none =>
      rw [Sys.logError_stops.stops ⟨hs, Option.map_eq_none_iff.1 hu⟩] at hsome
      cases hsome
    | some o =>
      obtain ⟨used, free, hc⟩ := hs.charted hu
      cases hfit : Sys.messageFits msg free with
      | true => exact ⟨o, used, free, hc, hfit⟩
      | false =>
        rw [(Sys.logError_short hlen hfit).stops hc] at hsome
        cases hsome
  · rintro ⟨o, used, free, hc, hfit⟩
    exact (Sys.logError_fits hlen hfit).returns hc

/-! ## Enough room -/

theorem firstFit_of_hasRoom {size n : ℕ} (hr : HasRoom n free) (hn : size + 24 ≤ n) :
    ∃ b free', firstFit 24 size free = some (b, free') ∧ HasRoom (n - size) free' := by
  cases e : firstFit 24 size free with
  | none =>
    obtain ⟨b, hb, hle⟩ := hr
    have := firstFit_eq_none.1 e b hb
    omega
  | some x => exact ⟨x.1, x.2, rfl, hr.firstFit hn e⟩

theorem concatsFit_of_hasRoom {strs : List String} {length : ℕ}
    (hlen : length + (strs.map String.length).sum ≤ 200) (hr : HasRoom (250 * strs.length) free) :
    Sys.concatsFit b free length strs = true := by
  induction strs generalizing b free length with
  | nil => rfl
  | cons str strs ih =>
    rw [List.map_cons, List.sum_cons] at hlen
    rw [List.length_cons] at hr
    have hal : alignUp (length + str.length + 1 + 16) ≤ 224 := by
      unfold alignUp
      omega
    obtain ⟨c, free', e, hr'⟩ := firstFit_of_hasRoom hr
      (show alignUp (length + str.length + 1 + 16) + 24 ≤ 250 * (strs.length + 1) by omega)
    rw [Sys.concatsFit, e]
    exact ih (by omega) ((hr'.mono (by omega)).insertJoin b)

/-- **A free block of 1000 bytes is enough for a message.** -/
theorem messageFits_of_hasRoom {msg : String} (hlen : msg.length ≤ 100) (hr : HasRoom 1000 free) :
    Sys.messageFits msg free = true := by
  obtain ⟨b, free', e, hr'⟩ := firstFit_of_hasRoom hr (by decide : alignUp (46 + 16) + 24 ≤ 1000)
  rw [Sys.messageFits, e]
  exact concatsFit_of_hasRoom (Sys.message_length hlen)
    (hr'.mono (show 250 * 2 ≤ 1000 - alignUp (46 + 16) by decide))

end EitanOS
