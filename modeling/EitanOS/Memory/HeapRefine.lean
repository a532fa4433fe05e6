import EitanOS.Lib.FreeList
import EitanOS.Memory.Allocator

/-!
# The allocator computes on the list its memory represents

* `Rep h free`: the free list linked in memory is the list of blocks `free`.
* `fitScan_spec`, `freeScan_spec`: where the two loops stop.
* **`mallocInternal_refines`**, **`freeInternal_refines`**: on a represented list, the code computes
  `FreeList.firstFit` and `FreeList.insertJoin`, and writes only inside free blocks (and the block
  being freed).
-/

namespace EitanOS

open Links Blocks FreeList

/-- The last element, or null. -/
def lastD (l : List ℕ) : ℕ := l.getLast?.getD 0

/-- `free` is the free list stored in `h`. -/
structure Rep (h : Heap) (free : List Blk) : Prop where
  linked : Seg (blockNext h.mem) h.freeList (free.map Prod.fst) 0
  sizes : ∀ b ∈ free, blockSize h.mem b.1 = b.2

@[simp] theorem lastD_nil : lastD [] = 0 := rfl

@[simp] theorem lastD_concat (l : List ℕ) (a : ℕ) : lastD (l ++ [a]) = a := by
  simp [lastD]

theorem lastD_mem {l : List ℕ} (h : l ≠ []) : lastD l ∈ l := by
  obtain ⟨k, b, rfl⟩ := (List.eq_nil_or_concat l).resolve_left h
  simp

theorem getLast?_eq_lastD {l : List ℕ} {b : ℕ} (h : l.getLast? = some b) : lastD l = b := by
  rw [lastD, h]; rfl

theorem eight_dvd_alignUp (x : ℕ) : 8 ∣ alignUp x := Dvd.intro_left _ rfl

theorem alignUp_le {x : ℕ} (h : x + 7 < 2 ^ 64) : x ≤ alignUp x := by
  unfold alignUp
  rw [Nat.mod_eq_of_lt h]
  omega

/-! ## Where the loops stop -/

/-- Where the loop of `malloc_internal` stops: the first block that fits, or null, with the block
before it. -/
def fitScan (m : Mem) (size : ℕ) : ℕ → ℕ → ℕ → Option (ℕ × ℕ)
  | 0, _, _ => none
  | fuel + 1, prev, curr =>
    if curr = 0 ∨ size ≤ m curr then some (prev, curr) else fitScan m size fuel curr (m (curr + 8))

theorem mallocLoop_eq (h : Heap) (size fuel prev curr : ℕ) : mallocLoop h size fuel prev curr =
    (fitScan h.mem size fuel prev curr).map fun (prev, curr) =>
      if curr = 0 then (h, 0) else mallocTake h size prev curr := by
  induction fuel generalizing prev curr with
  | zero => rfl
  | succ fuel ih =>
    rw [mallocLoop, fitScan]
    by_cases h₀ : curr = 0
    · simp [h₀]
    by_cases h₁ : size ≤ h.mem curr
    · simp [h₀, h₁]
    · rw [if_neg h₀, if_neg h₁, if_neg (not_or.mpr ⟨h₀, h₁⟩), ih]

theorem fitScan_spec {m : Mem} {size : ℕ} : ∀ {fuel curr : ℕ} {l₁ l₂ : List ℕ} {r : ℕ × ℕ},
    Seg (blockNext m) curr l₂ 0 → (∀ a ∈ l₂, a ≠ 0) → (∀ a ∈ l₁, m a < size) →
    fitScan m size fuel (lastD l₁) curr = some r →
    (r.2 = 0 ∧ ∀ a ∈ l₁ ++ l₂, m a < size) ∨
      r.2 ≠ 0 ∧ ∃ k k', l₁ ++ l₂ = k ++ r.2 :: k' ∧ r.1 = lastD k ∧ (∀ a ∈ k, m a < size) ∧
        size ≤ m r.2 := by
  intro fuel
  induction fuel with
  | zero => intro _ _ _ _ _ _ _ e; exact absurd e (by simp [fitScan])
  | succ fuel ih =>
    intro curr l₁ l₂ r hs h0 hl e
    rw [fitScan] at e
    cases l₂ with
    | nil =>
      have hc := seg_nil.mp hs
      rw [if_pos (Or.inl hc)] at e
      obtain rfl := Option.some.inj e
      exact Or.inl ⟨hc, by simpa using hl⟩
    | cons c l₂ =>
      obtain ⟨rfl, hs⟩ := hs
      have hcurr := h0 curr List.mem_cons_self
      split_ifs at e with hc
      · obtain rfl := Option.some.inj e
        exact Or.inr ⟨hcurr, l₁, l₂, rfl, rfl, hl, hc.resolve_left hcurr⟩
      · have hl' : ∀ a ∈ l₁ ++ [curr], m a < size := fun a ha => by
          rcases List.mem_append.mp ha with ha | ha
          · exact hl a ha
          · rw [List.mem_singleton.mp ha]; omega
        have := ih hs (fun a ha => h0 a (List.mem_cons_of_mem _ ha)) hl'
          (by rw [lastD_concat]; exact e)
        simpa using this

theorem mallocLoop_isSome {h : Heap} {size : ℕ} : ∀ {fuel prev curr : ℕ} {l : List ℕ},
    Seg (blockNext h.mem) curr l 0 → l.length < fuel →
    (mallocLoop h size fuel prev curr).isSome = true := by
  intro fuel
  induction fuel with
  | zero => intro _ _ _ _ hl; exact absurd hl (Nat.not_lt_zero _)
  | succ fuel ih =>
    intro prev curr l hs hl
    rw [mallocLoop]
    split_ifs with h₀ h₁
    · rfl
    · rfl
    cases l with
    | nil => exact absurd hs h₀
    | cons c l =>
      obtain ⟨rfl, hs⟩ := hs
      exact ih hs (by simpa using hl)

theorem freeScan_spec {m : Mem} {blk : ℕ} : ∀ {fuel curr : ℕ} {l₁ l₂ : List ℕ} {r : ℕ × ℕ},
    Seg (blockNext m) curr l₂ 0 → (∀ a ∈ l₂, a ≠ 0) → l₂.Pairwise (· < ·) →
    (∀ a ∈ l₁, a < blk) → freeScan m blk fuel (lastD l₁) curr = some r →
    ∃ k k', l₁ ++ l₂ = k ++ k' ∧ r.1 = lastD k ∧ Seg (blockNext m) r.2 k' 0 ∧
      (∀ a ∈ k, a < blk) ∧ ∀ a ∈ k', blk ≤ a := by
  intro fuel
  induction fuel with
  | zero => intro _ _ _ _ _ _ _ _ e; exact absurd e (by simp [freeScan])
  | succ fuel ih =>
    intro curr l₁ l₂ r hs h0 hi hl e
    rw [freeScan] at e
    cases l₂ with
    | nil =>
      rw [if_neg (fun h => h.1 hs)] at e
      obtain rfl := Option.some.inj e
      exact ⟨l₁, [], rfl, rfl, hs, hl, by simp⟩
    | cons c l₂ =>
      have hs' := hs
      obtain ⟨rfl, hs⟩ := hs
      have hi' := List.pairwise_cons.mp hi
      split_ifs at e with hc
      · have hl' : ∀ a ∈ l₁ ++ [curr], a < blk := fun a ha => by
          rcases List.mem_append.mp ha with ha | ha
          · exact hl a ha
          · rw [List.mem_singleton.mp ha]; exact hc.2
        have := ih hs (fun a ha => h0 a (List.mem_cons_of_mem _ ha)) hi'.2 hl'
          (by rw [lastD_concat]; exact e)
        simpa using this
      · have hc' : blk ≤ curr := by
          have := h0 curr List.mem_cons_self
          by_contra h
          exact hc ⟨this, by omega⟩
        obtain rfl := Option.some.inj e
        refine ⟨l₁, curr :: l₂, rfl, rfl, hs', hl, fun a ha => ?_⟩
        rcases List.mem_cons.mp ha with rfl | ha
        · exact hc'
        · have := hi'.1 a ha
          omega

theorem freeScan_isSome {m : Mem} {blk : ℕ} : ∀ {fuel prev curr : ℕ} {l : List ℕ},
    Seg (blockNext m) curr l 0 → l.length < fuel →
    (freeScan m blk fuel prev curr).isSome = true := by
  intro fuel
  induction fuel with
  | zero => intro _ _ _ _ hl; exact absurd hl (Nat.not_lt_zero _)
  | succ fuel ih =>
    intro prev curr l hs hl
    rw [freeScan]
    split_ifs with h₀
    · cases l with
      | nil => exact absurd hs h₀.1
      | cons c l =>
        obtain ⟨rfl, hs⟩ := hs
        exact ih hs (by simpa using hl)
    · rfl

/-! ## The heap edits -/

section Edits

variable (h : Heap) (size prev c : ℕ)

theorem setLink_mem {x b : ℕ} (hx : prev ≠ 0 → x ≠ prev + 8) :
    (setLink h prev b).mem x = h.mem x := by
  unfold setLink
  split_ifs with hp
  · exact Function.update_of_ne (hx hp) _ _
  · rfl

theorem setLink_mem_self {b : ℕ} (hp : prev ≠ 0) : (setLink h prev b).mem (prev + 8) = b := by
  simp [setLink, hp]

theorem setLink_freeList {b : ℕ} :
    (setLink h prev b).freeList = if prev = 0 then b else h.freeList := by
  unfold setLink
  split_ifs <;> simp_all

/-- `h'` is `h` with the block `c` replaced by `v` in the free list. -/
structure Relinked (h h' : Heap) (prev v : ℕ) : Prop where
  head : h'.freeList = if prev = 0 then v else h.freeList
  link : prev ≠ 0 → h'.mem (prev + 8) = v

theorem Relinked.seg {h h' : Heap} {k l m : List ℕ} {v : ℕ} (r : Relinked h h' (lastD k) v)
    (hk : Seg (blockNext h.mem) h.freeList (k ++ l) 0) (hm : Seg (blockNext h'.mem) v m 0)
    (h0 : ∀ a ∈ k, a ≠ 0) (hd : k.Nodup)
    (e : ∀ b ∈ k, b ≠ lastD k → h'.mem (b + 8) = h.mem (b + 8)) :
    Seg (blockNext h'.mem) h'.freeList (k ++ m) 0 := by
  refine hk.splice hm ?_ ?_ ?_ hd
  · rintro rfl
    simpa using r.head
  · intro b hb
    have hb' := getLast?_eq_lastD hb
    have hne : lastD k ≠ 0 := h0 _ (lastD_mem (by rintro rfl; cases hb))
    exact ⟨by rw [r.head, if_neg hne], hb' ▸ r.link hne⟩
  · intro b hb hl
    refine e b hb fun hb' => hl ?_
    rw [List.getLast?_eq_some_getLast (List.ne_nil_of_mem hb)]
    rw [lastD, List.getLast?_eq_some_getLast (List.ne_nil_of_mem hb)] at hb'
    exact congrArg some hb'.symm

theorem mallocTake_split (hs : 24 ≤ size) (hfit : size + 24 ≤ h.mem c)
    (hp : prev = 0 ∨ prev + 24 ≤ c ∨ c + h.mem c ≤ prev) :
    (mallocTake h size prev c).2 = c + 16 ∧ Relinked h (mallocTake h size prev c).1 prev (c + size) ∧
      (mallocTake h size prev c).1.mem c = size ∧
      (mallocTake h size prev c).1.mem (c + size) = h.mem c - size ∧
      (mallocTake h size prev c).1.mem (c + size + 8) = h.mem (c + 8) ∧
      ∀ x, x ≠ c → x ≠ c + size → x ≠ c + size + 8 → (prev ≠ 0 → x ≠ prev + 8) →
        (mallocTake h size prev c).1.mem x = h.mem x := by
  rw [mallocTake, if_pos (by omega)]
  refine ⟨rfl, ⟨?_, fun hp' => ?_⟩, Function.update_self _ _ _, ?_, ?_, fun x h₁ h₂ h₃ h₄ => ?_⟩
  · exact setLink_freeList _ _
  · dsimp only
    rw [Function.update_of_ne (by omega), setLink_mem_self _ _ hp']
  · dsimp only
    rw [Function.update_of_ne (by omega), setLink_mem _ _ (by omega)]
    dsimp only
    rw [Function.update_of_ne (by omega), Function.update_self]
  · dsimp only
    rw [Function.update_of_ne (by omega), setLink_mem _ _ (by omega)]
    dsimp only
    rw [Function.update_self, Function.update_of_ne (by omega)]
  · dsimp only
    rw [Function.update_of_ne h₁, setLink_mem _ _ h₄]
    dsimp only
    rw [Function.update_of_ne h₃, Function.update_of_ne h₂]

theorem mallocTake_whole (hfit : ¬ 24 ≤ h.mem c - size) :
    (mallocTake h size prev c).2 = c + 16 ∧
      Relinked h (mallocTake h size prev c).1 prev (h.mem (c + 8)) ∧
      ∀ x, (prev ≠ 0 → x ≠ prev + 8) → (mallocTake h size prev c).1.mem x = h.mem x := by
  rw [mallocTake, if_neg hfit]
  exact ⟨rfl, ⟨setLink_freeList _ _, setLink_mem_self _ _⟩, fun x hx => setLink_mem _ _ hx⟩

theorem freeInsert_spec {blk : ℕ} (hp : prev ≠ blk) (curr : ℕ) :
    Relinked h (freeInsert h blk prev curr) prev blk ∧
      (freeInsert h blk prev curr).mem (blk + 8) = curr ∧
      ∀ x, x ≠ blk + 8 → (prev ≠ 0 → x ≠ prev + 8) → (freeInsert h blk prev curr).mem x = h.mem x := by
  unfold freeInsert
  refine ⟨⟨setLink_freeList _ _, setLink_mem_self _ _⟩, ?_, fun x h₁ h₂ => ?_⟩
  · rw [setLink_mem _ _ (by omega)]
    exact Function.update_self _ _ _
  · rw [setLink_mem _ _ h₂]
    exact Function.update_of_ne h₁ _ _

theorem mergeInto_spec {a b : ℕ} (hab : a ≠ b + 8) :
    (mergeInto h a b).freeList = h.freeList ∧ (mergeInto h a b).mem a = h.mem a + h.mem b ∧
      (mergeInto h a b).mem (a + 8) = h.mem (b + 8) ∧
      ∀ x, x ≠ a → x ≠ a + 8 → (mergeInto h a b).mem x = h.mem x := by
  unfold mergeInto
  refine ⟨rfl, ?_, ?_, fun x h₁ h₂ => ?_⟩
  · dsimp only
    rw [Function.update_of_ne (by omega), Function.update_self]
  · dsimp only
    rw [Function.update_self, Function.update_of_ne (Ne.symm hab)]
  · dsimp only
    rw [Function.update_of_ne h₂, Function.update_of_ne h₁]

end Edits

/-! ## The code computes on the represented list -/

section Refine

variable {h : Heap} {k k' free : List Blk} {b c : Blk} {size : ℕ}

/-- The lists the allocator works on: in address order, not at null, with room for a header. -/
def Sound (free : List Blk) : Prop :=
  (free.Pairwise fun b c => b.1 + b.2 ≤ c.1) ∧ ∀ b ∈ free, b.1 ≠ 0 ∧ 24 ≤ b.2

theorem lastD_map_fst (k : List Blk) :
    lastD (k.map Prod.fst) = 0 ∨ ∃ d ∈ k, d.1 = lastD (k.map Prod.fst) := by
  rcases eq_or_ne k [] with rfl | hk
  · exact Or.inl rfl
  · exact Or.inr (List.mem_map.mp (lastD_mem (by simpa using hk)))

theorem Sound.around (hs : Sound (k ++ c :: k')) : (∀ d ∈ k, d.1 + 24 ≤ c.1) ∧
    (∀ d ∈ k', c.1 + c.2 ≤ d.1) := by
  obtain ⟨h₁, h₂, h₃⟩ := List.pairwise_append.mp hs.1
  refine ⟨fun d hd => ?_, (List.pairwise_cons.mp h₂).1⟩
  have := h₃ d hd c List.mem_cons_self
  have := (hs.2 d (by simp [hd])).2
  omega

theorem Sound.sep (hs : Sound k) {d e : Blk} (hd : d ∈ k) (he : e ∈ k) :
    d.1 = e.1 ∨ d.1 + 24 ≤ e.1 ∨ e.1 + 24 ≤ d.1 := by
  have := (List.Pairwise.and_mem.mp hs.1).imp fun {x y} ⟨hx, _, hxy⟩ =>
    (show x.1 + 24 ≤ y.1 ∨ y.1 + 24 ≤ x.1 by have := (hs.2 x hx).2; omega)
  have hsym : Std.Symm fun x y : Blk => x.1 + 24 ≤ y.1 ∨ y.1 + 24 ≤ x.1 := ⟨fun _ _ => Or.symm⟩
  rcases eq_or_ne d e with rfl | hne
  · exact Or.inl rfl
  · exact Or.inr (this.forall hd he hne)

theorem Sound.append_left (hs : Sound (k ++ k')) : Sound k :=
  ⟨(List.pairwise_append.mp hs.1).1, fun b hb => hs.2 b (by simp [hb])⟩

theorem Sound.ne_zero (hs : Sound k) : ∀ a ∈ k.map Prod.fst, a ≠ 0 := by
  intro a ha
  obtain ⟨d, hd, rfl⟩ := List.mem_map.mp ha
  exact (hs.2 d hd).1

theorem Sound.increasing (hs : Sound k) : (k.map Prod.fst).Pairwise (· < ·) := by
  rw [List.pairwise_map]
  refine (List.Pairwise.and_mem.mp hs.1).imp fun {x y} ⟨hx, _, hxy⟩ => ?_
  have := (hs.2 x hx).2
  omega

theorem Sound.nodup (hs : Sound k) : (k.map Prod.fst).Nodup := hs.increasing.imp Nat.ne_of_lt

theorem Sound.prev_le (hs : Sound (k ++ c :: k')) :
    lastD (k.map Prod.fst) = 0 ∨ lastD (k.map Prod.fst) + 24 ≤ c.1 := by
  rcases lastD_map_fst k with e | ⟨e, he, hep⟩
  · exact Or.inl e
  · have := hs.around.1 e he
    omega

theorem Sound.prev_sep (hs : Sound k) {d : Blk} (hd : d ∈ k) (hp : lastD (k.map Prod.fst) ≠ 0) :
    d.1 ≠ lastD (k.map Prod.fst) + 8 ∧
      (d.1 ≠ lastD (k.map Prod.fst) → d.1 + 8 ≠ lastD (k.map Prod.fst) + 8) := by
  obtain ⟨e, he, hep⟩ := (lastD_map_fst k).resolve_left hp
  have := hs.sep hd he
  omega

theorem Sound.prev_outside (hs : Sound (k ++ k')) {x : ℕ}
    (hx : ∀ d ∈ k ++ k', x < d.1 ∨ d.1 + d.2 ≤ x) (hp : lastD (k.map Prod.fst) ≠ 0) :
    x ≠ lastD (k.map Prod.fst) + 8 := by
  obtain ⟨e, he, hep⟩ := (lastD_map_fst k).resolve_left hp
  have := hx e (by simp [he])
  have := (hs.2 e (by simp [he])).2
  omega

theorem Rep.seg_behind (r : Rep h (k ++ c :: k')) :
    Seg (blockNext h.mem) (blockNext h.mem c.1) (k'.map Prod.fst) 0 := by
  have hlink := r.linked
  rw [List.map_append, List.map_cons] at hlink
  obtain ⟨q, -, -, hseg⟩ := seg_append.mp hlink
  exact hseg

theorem seg_map_fst {h' : Heap} {p q : ℕ} (hs : Seg (blockNext h.mem) p (k.map Prod.fst) q)
    (e : ∀ d ∈ k, h'.mem (d.1 + 8) = h.mem (d.1 + 8)) :
    Seg (blockNext h'.mem) p (k.map Prod.fst) q := by
  refine hs.congr fun a ha => ?_
  obtain ⟨d, hd, rfl⟩ := List.mem_map.mp ha
  exact e d hd

/-- **Relinking after `k`**: the headers before are kept, up to the link that changes, and `m` is
what comes after. -/
theorem Relinked.rep {h' : Heap} {m : List Blk} {v : ℕ}
    (hrel : Relinked h h' (lastD (k.map Prod.fst)) v) (r : Rep h (k ++ k')) (hs : Sound k)
    (keep : ∀ d ∈ k, ∀ x, d.1 ≤ x → x ≤ d.1 + 8 →
      (lastD (k.map Prod.fst) ≠ 0 → x ≠ lastD (k.map Prod.fst) + 8) → h'.mem x = h.mem x)
    (hm : Seg (blockNext h'.mem) v (m.map Prod.fst) 0)
    (sizes : ∀ d ∈ m, blockSize h'.mem d.1 = d.2) : Rep h' (k ++ m) := by
  refine ⟨?_, fun d hd => ?_⟩
  · have hlink := r.linked
    rw [List.map_append] at hlink ⊢
    refine hrel.seg hlink hm hs.ne_zero hs.nodup fun a ha hne => ?_
    obtain ⟨d, hd, rfl⟩ := List.mem_map.mp ha
    exact keep d hd _ (by omega) le_rfl fun hp => (hs.prev_sep hd hp).2 hne
  · rcases List.mem_append.mp hd with hd | hd
    · rw [← r.sizes d (by simp [hd])]
      exact keep d hd _ le_rfl (by omega) fun hp => (hs.prev_sep hd hp).1
    · exact sizes d hd

theorem mallocTake_rep_split (r : Rep h (k ++ c :: k')) (hs : Sound (k ++ c :: k')) (h24 : 24 ≤ size)
    (hrem : size + 24 ≤ c.2) :
    (mallocTake h size (lastD (k.map Prod.fst)) c.1).2 = c.1 + 16 ∧
      Rep (mallocTake h size (lastD (k.map Prod.fst)) c.1).1
        (k ++ (c.1 + size, c.2 - size) :: k') ∧
      (mallocTake h size (lastD (k.map Prod.fst)) c.1).1.mem c.1 = size ∧
      ∀ x, (∀ d ∈ k ++ c :: k', x < d.1 ∨ d.1 + d.2 ≤ x) →
        (mallocTake h size (lastD (k.map Prod.fst)) c.1).1.mem x = h.mem x := by
  obtain ⟨hk, hk'⟩ := hs.around
  have hc : h.mem c.1 = c.2 := r.sizes c (by simp)
  have hpc := hs.prev_le
  have hsk := hs.append_left
  have hseg := r.seg_behind
  obtain ⟨h₁, hrel, hmc, hmn, hmn', hfr⟩ :=
    mallocTake_split h size (lastD (k.map Prod.fst)) c.1 h24 (by omega) (by omega)
  refine ⟨h₁, hrel.rep r hsk (fun d hd x _ hx => ?_) ⟨rfl, ?_⟩ fun d hd => ?_, hmc, fun x hx => ?_⟩
  · have := hk d hd
    exact hfr x (by omega) (by omega) (by omega)
  · rw [blockNext, hmn']
    refine seg_map_fst hseg fun d hd => ?_
    have := hk' d hd
    exact hfr _ (by omega) (by omega) (by omega) (by omega)
  · rcases List.mem_cons.mp hd with rfl | hd
    · rw [blockSize, hmn, hc]
    · have := hk' d hd
      rw [← r.sizes d (by simp [hd])]
      exact hfr _ (by omega) (by omega) (by omega) (by omega)
  · have hxc := hx c (by simp)
    exact hfr x (by omega) (by omega) (by omega) (hs.prev_outside hx)

theorem mallocTake_rep_whole (r : Rep h (k ++ c :: k')) (hs : Sound (k ++ c :: k'))
    (hrem : ¬ 24 ≤ c.2 - size) :
    (mallocTake h size (lastD (k.map Prod.fst)) c.1).2 = c.1 + 16 ∧
      Rep (mallocTake h size (lastD (k.map Prod.fst)) c.1).1 (k ++ k') ∧
      (mallocTake h size (lastD (k.map Prod.fst)) c.1).1.mem c.1 = c.2 ∧
      ∀ x, (∀ d ∈ k ++ c :: k', x < d.1 ∨ d.1 + d.2 ≤ x) →
        (mallocTake h size (lastD (k.map Prod.fst)) c.1).1.mem x = h.mem x := by
  obtain ⟨hk, hk'⟩ := hs.around
  have hc : h.mem c.1 = c.2 := r.sizes c (by simp)
  have hpc := hs.prev_le
  have hsk := hs.append_left
  have hseg := r.seg_behind
  obtain ⟨h₁, hrel, hfr⟩ := mallocTake_whole h size (lastD (k.map Prod.fst)) c.1 (by omega)
  have h24 := (hs.2 c (by simp)).2
  refine ⟨h₁, hrel.rep r hsk (fun d _ x _ _ => hfr x) ?_ fun d hd => ?_, ?_,
    fun x hx => hfr x (hs.prev_outside hx)⟩
  · refine seg_map_fst hseg fun d hd => ?_
    have := hk' d hd
    exact hfr _ (by omega)
  · have := hk' d hd
    rw [← r.sizes d (by simp [hd])]
    exact hfr _ (by omega)
  · rw [hfr _ (by omega), hc]

/-- **A fitting block is split**, or taken whole, as `firstFit` says. -/
theorem mallocTake_rep (r : Rep h (k ++ c :: k')) (hs : Sound (k ++ c :: k')) (h24 : 24 ≤ size)
    (hfit : size ≤ c.2) : ∃ b l, firstFit 24 size (c :: k') = some (b, l) ∧
      (mallocTake h size (lastD (k.map Prod.fst)) c.1).2 = b.1 + 16 ∧
      Rep (mallocTake h size (lastD (k.map Prod.fst)) c.1).1 (k ++ l) ∧
      (mallocTake h size (lastD (k.map Prod.fst)) c.1).1.mem b.1 = b.2 ∧
      ∀ x, (∀ d ∈ k ++ c :: k', x < d.1 ∨ d.1 + d.2 ≤ x) →
        (mallocTake h size (lastD (k.map Prod.fst)) c.1).1.mem x = h.mem x := by
  rw [firstFit, if_pos hfit]
  by_cases hrem : 24 ≤ c.2 - size
  · rw [if_pos hrem]
    exact ⟨_, _, rfl, mallocTake_rep_split r hs h24 (by omega)⟩
  · rw [if_neg hrem]
    exact ⟨_, _, rfl, mallocTake_rep_whole r hs hrem⟩

/-- **`malloc_internal` is first fit** on the represented list, and writes only inside free
blocks. -/
theorem mallocInternal_refines {fuel p : ℕ} {h' : Heap} (r : Rep h free) (hs : Sound free)
    (h₁ : 1 ≤ size) (h₂ : size ≤ 2 ^ 64 - 24) (e : mallocInternal fuel h size = some (h', p)) :
    (p = 0 ∧ h' = h ∧ firstFit 24 (alignUp (size + 16)) free = none) ∨
      ∃ b l, firstFit 24 (alignUp (size + 16)) free = some (b, l) ∧ p = b.1 + 16 ∧ Rep h' l ∧
        h'.mem b.1 = b.2 ∧ ∀ x, (∀ d ∈ free, x < d.1 ∨ d.1 + d.2 ≤ x) → h'.mem x = h.mem x := by
  have h24 : 24 ≤ alignUp (size + 16) := by
    unfold alignUp
    rw [Nat.mod_eq_of_lt (by omega)]
    omega
  rw [mallocInternal, if_neg (by omega), Nat.mod_eq_of_lt (a := size + 16) (by omega),
    ← lastD_nil] at e
  rw [mallocLoop_eq] at e
  obtain ⟨⟨prev, curr⟩, hscan, h₅⟩ := Option.map_eq_some_iff.mp e
  rcases fitScan_spec r.linked hs.ne_zero (by simp) hscan with ⟨h₃, h₄⟩ | ⟨hc0, k, k', h₃, rfl, hk, h₄⟩
  · obtain ⟨rfl, rfl⟩ := Prod.mk.inj ((if_pos h₃).symm.trans h₅)
    refine Or.inl ⟨rfl, rfl, firstFit_eq_none.mpr fun b hb => ?_⟩
    rw [← r.sizes b hb]
    exact h₄ _ (List.mem_map.mpr ⟨b, hb, rfl⟩)
  · obtain ⟨k, l, rfl, rfl, hl⟩ := List.map_eq_append_iff.mp h₃
    obtain ⟨c, k', rfl, rfl, rfl⟩ := List.map_eq_cons_iff.mp hl
    have hc : h.mem c.1 = c.2 := r.sizes c (by simp)
    rw [hc] at h₄
    obtain ⟨b, l, hf, hp, hr, hb, hx⟩ := mallocTake_rep r hs h24 h₄
    rw [(if_neg hc0).symm.trans h₅] at hp hr hb hx
    refine Or.inr ⟨b, k ++ l, ?_, hp, hr, hb, hx⟩
    rw [firstFit_append fun d hd => ?_, hf]
    · rfl
    · rw [← r.sizes d (by simp [hd])]
      exact hk _ (List.mem_map.mpr ⟨d, hd, rfl⟩)

/-- **Linking a block in.** -/
theorem freeInsert_rep {curr : ℕ} (r : Rep h (k ++ k')) (hs : Sound (k ++ b :: k'))
    (hb : h.mem b.1 = b.2) (hcurr : Seg (blockNext h.mem) curr (k'.map Prod.fst) 0) :
    Rep (freeInsert h b.1 (lastD (k.map Prod.fst)) curr) (k ++ b :: k') ∧
      ∀ x, (∀ d ∈ k ++ b :: k', x < d.1 ∨ d.1 + d.2 ≤ x) →
        (freeInsert h b.1 (lastD (k.map Prod.fst)) curr).mem x = h.mem x := by
  obtain ⟨hk, hk'⟩ := hs.around
  have hb0 := hs.2 b (by simp)
  have hsk := hs.append_left
  have hpb := hs.prev_le
  obtain ⟨hrel, hnext, hfr⟩ :=
    freeInsert_spec h (lastD (k.map Prod.fst)) (by omega : lastD (k.map Prod.fst) ≠ b.1) curr
  refine ⟨hrel.rep r hsk (fun d hd x _ hx => ?_) ⟨rfl, ?_⟩ fun d hd => ?_, fun x hx => ?_⟩
  · have := hk d hd
    exact hfr x (by omega)
  · rw [blockNext, hnext]
    refine seg_map_fst hcurr fun d hd => ?_
    have := hk' d hd
    exact hfr _ (by omega) (by omega)
  · rcases List.mem_cons.mp hd with rfl | hd
    · rw [blockSize, hfr _ (by omega) (by omega), hb]
    · have := hk' d hd
      rw [← r.sizes d (by simp [hd])]
      exact hfr _ (by omega) (by omega)
  · have := hx b (by simp)
    exact hfr x (by omega) (hs.prev_outside hx)

/-- **Merging a block into the one before it.** -/
theorem mergeInto_rep (r : Rep h (k ++ b :: c :: k')) (hs : Sound (k ++ b :: c :: k')) :
    Rep (mergeInto h b.1 c.1) (k ++ (b.1, b.2 + c.2) :: k') ∧
      ∀ x, (∀ d ∈ k ++ b :: c :: k', x < d.1 ∨ d.1 + d.2 ≤ x) →
        (mergeInto h b.1 c.1).mem x = h.mem x := by
  obtain ⟨hk, hk'⟩ := hs.around
  have hb0 := hs.2 b (by simp)
  have hbc := hk' c (by simp)
  obtain ⟨hhead, hsize, hnext, hfr⟩ := mergeInto_spec h (a := b.1) (b := c.1) (by omega)
  refine ⟨⟨?_, fun d hd => ?_⟩, fun x hx => ?_⟩
  · have hlink := r.linked
    rw [List.map_append, List.map_cons, List.map_cons] at hlink
    rw [List.map_append, List.map_cons, hhead]
    obtain ⟨q, hq, rfl, hq', hseg⟩ := seg_append.mp hlink
    refine seg_append.mpr ⟨_, seg_map_fst hq fun d hd => ?_, rfl, ?_⟩
    · have := hk d hd
      exact hfr _ (by omega) (by omega)
    · rw [blockNext, hnext]
      refine seg_map_fst hseg fun d hd => ?_
      have := hk' d (List.mem_cons_of_mem _ hd)
      exact hfr _ (by omega) (by omega)
  · rcases List.mem_append.mp hd with hd | hd
    · have := hk d hd
      rw [← r.sizes d (by simp [hd])]
      exact hfr _ (by omega) (by omega)
    rcases List.mem_cons.mp hd with rfl | hd
    · rw [blockSize, hsize, ← r.sizes b (by simp), ← r.sizes c (by simp)]
    · have := hk' d (List.mem_cons_of_mem _ hd)
      rw [← r.sizes d (by simp [hd])]
      exact hfr _ (by omega) (by omega)
  · have := hx b (by simp)
    exact hfr x (by omega) (by omega)

theorem Sound.joinCons (hs : Sound (k ++ b :: k')) : Sound (k ++ joinCons b k') := by
  cases k' with
  | nil => exact hs
  | cons c l =>
    rw [FreeList.joinCons]
    split_ifs with h
    · obtain ⟨h₁, h₂, h₃⟩ := List.pairwise_append.mp hs.1
      obtain ⟨h₄, h₅⟩ := List.pairwise_cons.mp h₂
      obtain ⟨h₆, h₇⟩ := List.pairwise_cons.mp h₅
      refine ⟨List.pairwise_append.mpr ⟨h₁, List.pairwise_cons.mpr ⟨fun d hd => ?_, h₇⟩, ?_⟩, ?_⟩
      · have := h₆ d hd
        simp only
        omega
      · intro a ha d hd
        rcases List.mem_cons.mp hd with rfl | hd
        · exact h₃ a ha b (by simp)
        · exact h₃ a ha d (by simp [hd])
      · intro d hd
        simp only [List.mem_append, List.mem_cons] at hd
        rcases hd with hd | rfl | hd
        · exact hs.2 d (by simp [hd])
        · have := hs.2 b (by simp)
          exact ⟨this.1, by simp only; omega⟩
        · exact hs.2 d (by simp [hd])
    · exact hs

theorem coalesceNext_rep (r : Rep h (k ++ b :: k')) (hs : Sound (k ++ b :: k')) :
    Rep (coalesceNext h b.1) (k ++ joinCons b k') ∧
      ∀ x, (∀ d ∈ k ++ b :: k', x < d.1 ∨ d.1 + d.2 ≤ x) →
        (coalesceNext h b.1).mem x = h.mem x := by
  have hseg := r.seg_behind
  have hb : h.mem b.1 = b.2 := r.sizes b (by simp)
  rw [coalesceNext]
  cases k' with
  | nil =>
    rw [if_neg fun hc => hc.1 hseg]
    exact ⟨r, fun _ _ => rfl⟩
  | cons c l =>
    have hc : h.mem (b.1 + 8) = c.1 := hseg.1
    have hc0 := (hs.2 c (by simp)).1
    rw [hc, hb, joinCons]
    by_cases ht : b.1 + b.2 = c.1
    · rw [if_pos ⟨hc0, ht⟩, if_pos ht]
      exact mergeInto_rep r hs
    · rw [if_neg fun h => ht h.2, if_neg ht]
      exact ⟨r, fun _ _ => rfl⟩

theorem coalescePrev_rep {p : Blk} (r : Rep h (k ++ p :: c :: k')) (hs : Sound (k ++ p :: c :: k')) :
    Rep (coalescePrev h p.1 c.1) (k ++ joinCons p (c :: k')) ∧
      ∀ x, (∀ d ∈ k ++ p :: c :: k', x < d.1 ∨ d.1 + d.2 ≤ x) →
        (coalescePrev h p.1 c.1).mem x = h.mem x := by
  have hp := hs.2 p (by simp)
  have hp' : h.mem p.1 = p.2 := r.sizes p (by simp)
  rw [coalescePrev, hp', joinCons]
  by_cases ht : p.1 + p.2 = c.1
  · rw [if_pos ⟨hp.1, ht⟩, if_pos ht]
    exact mergeInto_rep r hs
  · rw [if_neg fun h => ht h.2, if_neg ht]
    exact ⟨r, fun _ _ => rfl⟩

theorem joinCons_eq_cons (b : Blk) (l : List Blk) : ∃ n l', joinCons b l = (b.1, n) :: l' := by
  cases l with
  | nil => exact ⟨_, _, rfl⟩
  | cons c l =>
    rw [joinCons]
    split_ifs
    · exact ⟨_, _, rfl⟩
    · exact ⟨_, _, rfl⟩

theorem outside_joinCons {x : ℕ} {l : List Blk} (h : ∀ d ∈ b :: l, x < d.1 ∨ d.1 + d.2 ≤ x) :
    ∀ d ∈ joinCons b l, x < d.1 ∨ d.1 + d.2 ≤ x := by
  cases l with
  | nil => exact h
  | cons c l =>
    rw [joinCons]
    split_ifs with ht
    · intro d hd
      rcases List.mem_cons.mp hd with rfl | hd
      · have h₁ := h b (by simp)
        have h₂ := h c (by simp)
        simp only
        omega
      · exact h d (by simp [hd])
    · exact h

theorem Sound.insert (hs : Sound (k ++ k')) (hb : b.1 ≠ 0 ∧ 24 ≤ b.2) (ha : ∀ d ∈ k ++ k', Apart b d)
    (hk : ∀ d ∈ k, d.1 < b.1) (hk' : ∀ d ∈ k', b.1 ≤ d.1) : Sound (k ++ b :: k') := by
  obtain ⟨h₁, h₂, h₃⟩ := List.pairwise_append.mp hs.1
  refine ⟨List.pairwise_append.mpr ⟨h₁, List.pairwise_cons.mpr ⟨fun d hd => ?_, h₂⟩, ?_⟩, ?_⟩
  · have h₄ := ha d (by simp [hd])
    have h₅ := hk' d hd
    have h₆ := (hs.2 d (by simp [hd])).2
    simp only [Apart] at h₄
    omega
  · intro d hd f hf
    rcases List.mem_cons.mp hf with rfl | hf
    · have h₄ := ha d (by simp [hd])
      have h₅ := hk d hd
      simp only [Apart] at h₄
      omega
    · exact h₃ d hd f hf
  · intro d hd
    simp only [List.mem_append, List.mem_cons] at hd
    rcases hd with hd | rfl | hd
    · exact hs.2 d (by simp [hd])
    · exact hb
    · exact hs.2 d (by simp [hd])

/-- **`free_internal` inserts and joins** on the represented list, and writes only inside free
blocks and the block it frees. -/
theorem freeInternal_refines {fuel : ℕ} {h' : Heap} (r : Rep h free) (hsp : Spaced free)
    (hs : Sound free) (hb : h.mem b.1 = b.2) (hb0 : b.1 ≠ 0 ∧ 24 ≤ b.2)
    (ha : ∀ d ∈ free, Apart b d) (e : freeInternal fuel h (b.1 + 16) = some h') :
    Rep h' (insertJoin b free) ∧
      ∀ x, (∀ d ∈ b :: free, x < d.1 ∨ d.1 + d.2 ≤ x) → h'.mem x = h.mem x := by
  rw [freeInternal, if_neg (by omega), Nat.add_sub_cancel, ← lastD_nil] at e
  obtain ⟨⟨prev, curr⟩, hscan, rfl⟩ := Option.map_eq_some_iff.mp e
  obtain ⟨k, k', h₁, rfl, hseg, hk, hk'⟩ :=
    freeScan_spec r.linked hs.ne_zero hs.increasing (by simp) hscan
  obtain ⟨k, k', rfl, rfl, rfl⟩ := List.map_eq_append_iff.mp h₁
  replace hk : ∀ d ∈ k, d.1 < b.1 := fun d hd => hk _ (List.mem_map.mpr ⟨d, hd, rfl⟩)
  replace hk' : ∀ d ∈ k', b.1 ≤ d.1 := fun d hd => hk' _ (List.mem_map.mpr ⟨d, hd, rfl⟩)
  have hs' : Sound (k ++ b :: k') := hs.insert hb0 ha hk hk'
  obtain ⟨r₁, hx₁⟩ := freeInsert_rep r hs' hb hseg
  obtain ⟨r₂, hx₂⟩ := coalesceNext_rep r₁ hs'
  have hs₂ := hs'.joinCons
  rw [insertJoin_append hk hk']
  dsimp only
  rcases List.eq_nil_or_concat k with rfl | ⟨k₀, p, rfl⟩
  · rw [List.foldr_nil, List.map_nil, lastD_nil, coalescePrev, if_neg fun h => h.1 rfl]
    refine ⟨r₂, fun x hx => ?_⟩
    have hx' : ∀ d ∈ [] ++ b :: k', x < d.1 ∨ d.1 + d.2 ≤ x := by simpa using hx
    exact (hx₂ x hx').trans (hx₁ x hx')
  · rw [List.concat_eq_append] at *
    rw [foldr_joinCons (List.pairwise_append.mp hsp).1]
    obtain ⟨n, l, hj⟩ := joinCons_eq_cons b k'
    rw [List.map_append, List.map_cons, List.map_nil, lastD_concat] at *
    rw [hj, List.append_assoc, List.cons_append, List.nil_append] at r₂ hs₂
    obtain ⟨r₃, hx₃⟩ := coalescePrev_rep r₂ hs₂
    rw [hj]
    refine ⟨r₃, fun x hx => ?_⟩
    have hx' : ∀ d ∈ k₀ ++ [p] ++ b :: k', x < d.1 ∨ d.1 + d.2 ≤ x := fun d hd => hx d (by
      simp only [List.mem_append, List.mem_cons] at hd ⊢; tauto)
    refine (hx₃ x fun d hd => ?_).trans ((hx₂ x hx').trans (hx₁ x hx'))
    rw [← hj] at hd
    simp only [List.mem_append, List.mem_cons] at hd
    rcases hd with hd | rfl | hd
    · exact hx' d (by simp [hd])
    · exact hx' d (by simp)
    · exact outside_joinCons (fun f hf => hx' f (List.mem_append_right _ hf)) d hd

end Refine

end EitanOS
