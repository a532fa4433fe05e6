import EitanOS.Lib.Blocks

/-!
# First-fit free lists with coalescing

A free list is a list of blocks in address order, no two of them touching (`Spaced`).

* `firstFit rem size`: take the first block of at least `size`; a remainder of at least `rem` is
  split off and stays in the list (`firstFit_cases` says everything it can do).
* `insertJoin b`: insert a block in address order, joining it with its neighbours.
* **`firstFit_tiles`**, **`insertJoin_tiles`**: both keep the list together with the allocated
  blocks a tiling, and **`firstFit_spaced`**, **`insertJoin_spaced`** keep it coalesced.
* `HasRoom.firstFit`, `HasRoom.insertJoin`: how much room there is for one block.
* **`Spaced.eq_of_covers`**: a coalesced list is determined by the places it covers.
-/

namespace FreeList

open Blocks

/-- In address order, no block touching a later one. -/
def Spaced (bs : List Blk) : Prop := bs.Pairwise fun b c => b.1 + b.2 < c.1

/-- The first block of at least `size`: the part taken, and the list that remains. -/
def firstFit (rem size : ℕ) : List Blk → Option (Blk × List Blk)
  | [] => none
  | b :: bs =>
    if size ≤ b.2 then
      if rem ≤ b.2 - size then some ((b.1, size), (b.1 + size, b.2 - size) :: bs) else some (b, bs)
    else (firstFit rem size bs).map fun r => (r.1, b :: r.2)

/-- Put `b` in front, joined with the first block if they touch. -/
def joinCons (b : Blk) : List Blk → List Blk
  | [] => [b]
  | c :: l => if b.1 + b.2 = c.1 then (b.1, b.2 + c.2) :: l else b :: c :: l

/-- Insert `b` in address order, joined with its neighbours. -/
def insertJoin (b : Blk) : List Blk → List Blk
  | [] => [b]
  | c :: l => if c.1 < b.1 then joinCons c (insertJoin b l) else joinCons b (c :: l)

variable {rem size lo hi : ℕ} {b c : Blk} {bs bs' cs k k' : List Blk}

/-! ## Taking a block -/

theorem firstFit_eq_none : firstFit rem size bs = none ↔ ∀ b ∈ bs, b.2 < size := by
  induction bs with
  | nil => simp [firstFit]
  | cons c bs ih =>
    rw [firstFit]
    split_ifs with h₁ h₂
    · simp [h₁]
    · simp [h₁]
    · rw [Option.map_eq_none_iff, ih]
      simp only [List.mem_cons, forall_eq_or_imp]
      exact ⟨fun h => ⟨by omega, h⟩, fun h => h.2⟩

theorem firstFit_append (hk : ∀ b ∈ k, b.2 < size) :
    firstFit rem size (k ++ bs) = (firstFit rem size bs).map fun r => (r.1, k ++ r.2) := by
  induction k with
  | nil => simp
  | cons c k ih =>
    have hc := hk c List.mem_cons_self
    rw [List.cons_append, firstFit, if_neg (by omega),
      ih fun b hb => hk b (List.mem_cons_of_mem _ hb), Option.map_map]
    rfl

/-- **What `firstFit` does**: it splits the first block that fits, or takes all of it. -/
theorem firstFit_cases (h : firstFit rem size bs = some (b, bs')) : ∃ k c k', bs = k ++ c :: k' ∧
    ((size + rem ≤ c.2 ∧ b = (c.1, size) ∧ bs' = k ++ (c.1 + size, c.2 - size) :: k') ∨
      (size ≤ c.2 ∧ c.2 < size + rem ∧ b = c ∧ bs' = k ++ k')) := by
  induction bs generalizing bs' with
  | nil => exact absurd h (by simp [firstFit])
  | cons c bs ih =>
    rw [firstFit] at h
    split_ifs at h with h₁ h₂
    · obtain ⟨rfl, rfl⟩ := Prod.mk.inj (Option.some.inj h)
      exact ⟨[], c, bs, rfl, Or.inl ⟨by omega, rfl, rfl⟩⟩
    · obtain ⟨rfl, rfl⟩ := Prod.mk.inj (Option.some.inj h)
      exact ⟨[], c, bs, rfl, Or.inr ⟨h₁, by omega, rfl, rfl⟩⟩
    · obtain ⟨⟨b', l⟩, hr, he⟩ := Option.map_eq_some_iff.mp h
      obtain ⟨rfl, rfl⟩ := Prod.mk.inj he
      obtain ⟨k, d, k', rfl, hd⟩ := ih hr
      refine ⟨c :: k, d, k', rfl, ?_⟩
      rcases hd with ⟨h₃, h₄, rfl⟩ | ⟨h₃, h₄, h₅, rfl⟩
      · exact Or.inl ⟨h₃, h₄, rfl⟩
      · exact Or.inr ⟨h₃, h₄, h₅, rfl⟩

theorem firstFit_le (h : firstFit rem size bs = some (b, bs')) : size ≤ b.2 := by
  obtain ⟨k, c, k', rfl, ⟨_, rfl, _⟩ | ⟨h₁, _, rfl, _⟩⟩ := firstFit_cases h
  · exact le_rfl
  · exact h₁

theorem perm_middle_append (k : List Blk) (x : Blk) (k' l : List Blk) :
    (k ++ x :: k' ++ l).Perm (x :: (k ++ k' ++ l)) := by
  rw [List.append_assoc, List.cons_append, List.append_assoc]
  exact List.perm_middle

/-- **Taking a block keeps the tiling.** -/
theorem firstFit_tiles (h : firstFit rem size bs = some (b, bs')) (hs : 0 < size) (hr : 0 < rem)
    (ht : Tiles lo hi (bs ++ cs)) : Tiles lo hi (bs' ++ b :: cs) := by
  obtain ⟨k, c, k', rfl, ⟨h₁, rfl, rfl⟩ | ⟨h₁, h₂, rfl, rfl⟩⟩ := firstFit_cases h
  · have ht' := ht.perm (perm_middle_append k c k' cs)
    rw [show c = (c.1, size + (c.2 - size)) from Prod.ext rfl (by simp only; omega),
      tiles_split hs (by omega)] at ht'
    refine ht'.perm (((perm_middle_append k _ k' cs).symm.cons _).trans ?_)
    exact List.perm_middle.symm
  · exact ht.perm ((perm_middle_append k b k' cs).trans List.perm_middle.symm)

/-- **Taking a block keeps the list coalesced.** -/
theorem firstFit_spaced (h : firstFit rem size bs = some (b, bs')) (hb : Spaced bs) :
    Spaced bs' := by
  obtain ⟨k, c, k', rfl, ⟨h₁, rfl, rfl⟩ | ⟨h₁, h₂, rfl, rfl⟩⟩ := firstFit_cases h
  · obtain ⟨hk, hk', hx⟩ := List.pairwise_append.mp hb
    obtain ⟨hc, hk'⟩ := List.pairwise_cons.mp hk'
    refine List.pairwise_append.mpr ⟨hk, List.pairwise_cons.mpr ⟨fun d hd => ?_, hk'⟩, ?_⟩
    · have := hc d hd
      simp only
      omega
    · intro a ha d hd
      rcases List.mem_cons.mp hd with rfl | hd
      · have := hx a ha c List.mem_cons_self
        simp only
        omega
      · exact hx a ha d (List.mem_cons_of_mem _ hd)
  · exact hb.sublist (List.Sublist.append_left (List.sublist_cons_self _ _) _)

theorem firstFit_forall {P : Blk → Prop} (h : firstFit rem size bs = some (b, bs'))
    (hP : ∀ c ∈ bs, P c)
    (hsplit : ∀ c, P c → size + rem ≤ c.2 → P (c.1, size) ∧ P (c.1 + size, c.2 - size)) :
    P b ∧ ∀ c ∈ bs', P c := by
  obtain ⟨k, c, k', rfl, ⟨h₁, rfl, rfl⟩ | ⟨h₁, h₂, rfl, rfl⟩⟩ := firstFit_cases h
  · obtain ⟨h₂, h₃⟩ := hsplit c (hP c (by simp)) h₁
    refine ⟨h₂, fun d hd => ?_⟩
    simp only [List.mem_append, List.mem_cons] at hd
    rcases hd with hd | rfl | hd
    · exact hP d (by simp [hd])
    · exact h₃
    · exact hP d (by simp [hd])
  · refine ⟨hP b (by simp), fun d hd => hP d ?_⟩
    simp only [List.mem_append, List.mem_cons] at hd ⊢
    tauto

/-! ## Inserting a block -/

theorem joinCons_tiles (ht : Tiles lo hi (b :: (bs ++ cs))) : Tiles lo hi (joinCons b bs ++ cs) := by
  cases bs with
  | nil => exact ht
  | cons c l =>
    rw [joinCons]
    split_ifs with h
    · refine (tiles_split (ht.pos b (by simp)) (ht.pos c (by simp))).mpr ?_
      rw [h]
      exact ht
    · exact ht

/-- **Inserting a block keeps the tiling.** -/
theorem insertJoin_tiles (ht : Tiles lo hi (b :: (bs ++ cs))) :
    Tiles lo hi (insertJoin b bs ++ cs) := by
  induction bs generalizing cs with
  | nil => exact ht
  | cons c l ih =>
    rw [insertJoin]
    split_ifs with h
    · refine joinCons_tiles ?_
      have ht' : Tiles lo hi (b :: (l ++ c :: cs)) := ht.perm (List.perm_middle.symm.cons b)
      exact (ih ht').perm List.perm_middle
    · exact joinCons_tiles ht

theorem le_of_mem_joinCons {n : ℕ} (hb : n ≤ b.1) (hl : ∀ d ∈ bs, n ≤ d.1) :
    ∀ d ∈ joinCons b bs, n ≤ d.1 := by
  cases bs with
  | nil => simpa [joinCons] using hb
  | cons c l =>
    intro d hd
    rw [joinCons] at hd
    split_ifs at hd
    · rcases List.mem_cons.mp hd with rfl | hd
      · exact hb
      · exact hl d (List.mem_cons_of_mem _ hd)
    · rcases List.mem_cons.mp hd with rfl | hd
      · exact hb
      · exact hl d hd

theorem le_of_mem_insertJoin {n : ℕ} (hb : n ≤ b.1) (hl : ∀ d ∈ bs, n ≤ d.1) :
    ∀ d ∈ insertJoin b bs, n ≤ d.1 := by
  induction bs with
  | nil => simpa [insertJoin] using hb
  | cons c l ih =>
    rw [insertJoin]
    split_ifs
    · exact le_of_mem_joinCons (hl c List.mem_cons_self)
        (ih fun d hd => hl d (List.mem_cons_of_mem _ hd))
    · exact le_of_mem_joinCons hb hl

theorem joinCons_spaced (hb : Spaced bs) (hl : ∀ d ∈ bs, b.1 + b.2 ≤ d.1) :
    Spaced (joinCons b bs) := by
  cases bs with
  | nil => exact List.pairwise_singleton _ _
  | cons c l =>
    have hc := List.pairwise_cons.mp hb
    have hbc := hl c List.mem_cons_self
    rw [joinCons]
    split_ifs with h
    · refine List.pairwise_cons.mpr ⟨fun d hd => ?_, hc.2⟩
      have := hc.1 d hd
      simp only
      omega
    · refine List.pairwise_cons.mpr ⟨fun d hd => ?_, hb⟩
      rcases List.mem_cons.mp hd with rfl | hd
      · omega
      · have := hc.1 d hd
        omega

/-- **Inserting a block keeps the list coalesced.** -/
theorem insertJoin_spaced (hs : Spaced bs) (ha : ∀ d ∈ bs, Apart b d) (hpos : ∀ d ∈ bs, 0 < d.2) :
    Spaced (insertJoin b bs) := by
  induction bs with
  | nil => exact List.pairwise_singleton _ _
  | cons c l ih =>
    have hc := List.pairwise_cons.mp hs
    have hbc := ha c List.mem_cons_self
    have hcp := hpos c List.mem_cons_self
    simp only [Apart] at hbc
    rw [insertJoin]
    split_ifs with h
    · refine joinCons_spaced (ih hc.2 (fun d hd => ha d (List.mem_cons_of_mem _ hd))
        fun d hd => hpos d (List.mem_cons_of_mem _ hd)) ?_
      exact le_of_mem_insertJoin (by omega) fun d hd => (hc.1 d hd).le
    · refine joinCons_spaced hs fun d hd => ?_
      rcases List.mem_cons.mp hd with rfl | hd
      · omega
      · have := hc.1 d hd
        omega

theorem insertJoin_forall {P : Blk → Prop} (hP : ∀ c ∈ b :: bs, P c)
    (hjoin : ∀ c d, P c → P d → P (c.1, c.2 + d.2)) : ∀ c ∈ insertJoin b bs, P c := by
  have hcons : ∀ (a : Blk) (l : List Blk), P a → (∀ c ∈ l, P c) → ∀ c ∈ joinCons a l, P c := by
    intro a l ha hl c hc
    cases l with
    | nil => rw [List.mem_singleton.mp hc]; exact ha
    | cons d l =>
      rw [joinCons] at hc
      split_ifs at hc
      · rcases List.mem_cons.mp hc with rfl | hc
        · exact hjoin a d ha (hl d List.mem_cons_self)
        · exact hl c (List.mem_cons_of_mem _ hc)
      · rcases List.mem_cons.mp hc with rfl | hc
        · exact ha
        · exact hl c hc
  induction bs with
  | nil => exact hP
  | cons d l ih =>
    rw [insertJoin]
    split_ifs
    · refine hcons d _ (hP d (by simp)) (ih fun c hc => hP c ?_)
      simp only [List.mem_cons] at hc ⊢
      tauto
    · exact hcons b _ (hP b (by simp)) fun c hc => hP c (List.mem_cons_of_mem _ hc)

theorem insertJoin_append (hk : ∀ d ∈ k, d.1 < b.1) (hk' : ∀ d ∈ k', b.1 ≤ d.1) :
    insertJoin b (k ++ k') = k.foldr joinCons (joinCons b k') := by
  induction k with
  | nil =>
    cases k' with
    | nil => rfl
    | cons c l =>
      rw [List.nil_append, insertJoin, if_neg (Nat.not_lt.mpr (hk' c List.mem_cons_self))]
      rfl
  | cons c k ih =>
    rw [List.cons_append, insertJoin, if_pos (hk c List.mem_cons_self),
      ih fun d hd => hk d (List.mem_cons_of_mem _ hd)]
    rfl

theorem joinCons_of_lt {l : List Blk} (h : ∀ d ∈ l.head?, b.1 + b.2 < d.1) : joinCons b l = b :: l := by
  cases l with
  | nil => rfl
  | cons c l =>
    have := h c rfl
    rw [joinCons, if_neg (by omega)]

theorem head?_joinCons_le {n : ℕ} {l : List Blk} (h : n < b.1) : ∀ d ∈ (joinCons b l).head?, n < d.1 := by
  intro d hd
  cases l with
  | nil => simp [joinCons] at hd; exact hd ▸ h
  | cons c l =>
    rw [joinCons] at hd
    split_ifs at hd <;> simp at hd <;> exact hd ▸ h

theorem foldr_joinCons {l : List Blk} (hk : Spaced (k ++ [c])) :
    (k ++ [c]).foldr joinCons l = k ++ joinCons c l := by
  induction k with
  | nil => rfl
  | cons d k ih =>
    have hd := List.pairwise_cons.mp hk
    rw [List.cons_append, List.foldr_cons, ih hd.2, joinCons_of_lt]
    · rfl
    intro e he
    cases k with
    | nil =>
      rw [List.nil_append] at he
      exact head?_joinCons_le (hd.1 c (by simp)) e he
    | cons f k =>
      simp only [List.cons_append, List.head?_cons, Option.mem_some_iff] at he
      exact he ▸ hd.1 f (by simp)

/-! ## Room -/

/-- Some block has at least `n` bytes. -/
def HasRoom (n : ℕ) (bs : List Blk) : Prop := ∃ b ∈ bs, n ≤ b.2

theorem HasRoom.mono {n m : ℕ} (h : HasRoom n bs) (hm : m ≤ n) : HasRoom m bs := by
  obtain ⟨b, hb, hle⟩ := h
  exact ⟨b, hb, hm.trans hle⟩

/-- **Taking a block** costs at most what is taken. -/
theorem HasRoom.firstFit {n : ℕ} (hr : HasRoom n bs) (hn : size + rem ≤ n)
    (h : firstFit rem size bs = some (b, bs')) : HasRoom (n - size) bs' := by
  obtain ⟨d, hd, hle⟩ := hr
  obtain ⟨k, c, k', rfl, ⟨-, -, rfl⟩ | ⟨-, hlt, -, rfl⟩⟩ := firstFit_cases h
  · rcases List.mem_append.mp hd with hd | hd
    · exact ⟨d, List.mem_append_left _ hd, by omega⟩
    · rcases List.mem_cons.mp hd with rfl | hd
      · exact ⟨_, List.mem_append_right _ List.mem_cons_self, Nat.sub_le_sub_right hle size⟩
      · exact ⟨d, List.mem_append_right _ (List.mem_cons_of_mem _ hd), by omega⟩
  · -- the block that was used up was not the one with room
    rcases List.mem_append.mp hd with hd | hd
    · exact ⟨d, List.mem_append_left _ hd, by omega⟩
    · rcases List.mem_cons.mp hd with rfl | hd
      · omega
      · exact ⟨d, List.mem_append_right _ hd, by omega⟩

theorem HasRoom.joinCons {n : ℕ} (h : HasRoom n (b :: bs)) : HasRoom n (joinCons b bs) := by
  obtain ⟨d, hd, hle⟩ := h
  cases bs with
  | nil => exact ⟨d, hd, hle⟩
  | cons c l =>
    rw [FreeList.joinCons]
    split_ifs
    · rcases List.mem_cons.mp hd with rfl | hd
      · exact ⟨_, List.mem_cons_self, Nat.le_add_right_of_le hle⟩
      · rcases List.mem_cons.mp hd with rfl | hd
        · exact ⟨_, List.mem_cons_self, Nat.le_add_left_of_le hle⟩
        · exact ⟨d, List.mem_cons_of_mem _ hd, hle⟩
    · exact ⟨d, hd, hle⟩

/-- **Inserting a block** leaves the room there is. -/
theorem HasRoom.insertJoin {n : ℕ} (h : HasRoom n bs) (b : Blk) : HasRoom n (insertJoin b bs) := by
  induction bs with
  | nil =>
    obtain ⟨d, hd, -⟩ := h
    cases hd
  | cons c l ih =>
    obtain ⟨d, hd, hle⟩ := h
    rw [FreeList.insertJoin]
    split_ifs
    · refine HasRoom.joinCons ?_
      rcases List.mem_cons.mp hd with rfl | hd
      · exact ⟨d, List.mem_cons_self, hle⟩
      · obtain ⟨e, he, hle⟩ := ih ⟨d, hd, hle⟩
        exact ⟨e, List.mem_cons_of_mem _ he, hle⟩
    · exact HasRoom.joinCons ⟨d, List.mem_cons_of_mem _ hd, hle⟩

theorem Spaced.length_le {n : ℕ} (hs : Spaced bs) (hn : ∀ b ∈ bs, n ≤ b.2)
    (hin : ∀ b ∈ bs, lo ≤ b.1 ∧ b.1 + b.2 ≤ hi) : n * bs.length ≤ hi - lo := by
  induction bs generalizing lo with
  | nil => exact Nat.zero_le _
  | cons c l ih =>
    obtain ⟨hc, hl⟩ := List.pairwise_cons.mp hs
    rw [List.forall_mem_cons] at hn hin
    have := ih hl hn.2 fun b hb => ⟨(hc b hb).le, (hin.2 b hb).2⟩
    rw [List.length_cons, Nat.mul_succ]
    omega

/-! ## A canonical form -/

/-- `x` lies in a block of `bs`. -/
def Covers (bs : List Blk) (x : ℕ) : Prop := ∃ b ∈ bs, b.1 ≤ x ∧ x < b.1 + b.2

theorem covers_cons {x : ℕ} : Covers (b :: bs) x ↔ (b.1 ≤ x ∧ x < b.1 + b.2) ∨ Covers bs x := by
  simp [Covers]

theorem Spaced.lt_of_covers (hs : Spaced (b :: bs)) {x : ℕ} (hx : Covers bs x) : b.1 + b.2 < x := by
  obtain ⟨c, hc, h₁, -⟩ := hx
  have := (List.pairwise_cons.mp hs).1 c hc
  omega

theorem Spaced.head_eq (hb : Spaced (b :: bs)) (hc : Spaced (c :: cs)) (hb₀ : 0 < b.2)
    (hc₀ : 0 < c.2) (h : ∀ x, Covers (b :: bs) x ↔ Covers (c :: cs) x) : b = c := by
  -- the least place covered is the start, the least place not covered behind it is the end
  have h₁ := (h b.1).mp (covers_cons.mpr (Or.inl (by omega)))
  have h₂ := (h c.1).mpr (covers_cons.mpr (Or.inl (by omega)))
  have hstart : b.1 = c.1 := by
    rcases covers_cons.mp h₁ with h₁ | h₁ <;> rcases covers_cons.mp h₂ with h₂ | h₂
    · omega
    · have := hb.lt_of_covers h₂
      omega
    · have := hc.lt_of_covers h₁
      omega
    · have := hb.lt_of_covers h₂
      have := hc.lt_of_covers h₁
      omega
  refine Prod.ext hstart (le_antisymm (not_lt.mp fun hlt => ?_) (not_lt.mp fun hlt => ?_))
  · rcases covers_cons.mp ((h (c.1 + c.2)).mp (covers_cons.mpr (Or.inl (by omega)))) with h₃ | h₃
    · omega
    · exact lt_irrefl _ (hc.lt_of_covers h₃)
  · rcases covers_cons.mp ((h (b.1 + b.2)).mpr (covers_cons.mpr (Or.inl (by omega)))) with h₃ | h₃
    · omega
    · exact lt_irrefl _ (hb.lt_of_covers h₃)

/-- **A coalesced list is determined by what it covers.** -/
theorem Spaced.eq_of_covers (hb : Spaced bs) (hc : Spaced cs) (hb₀ : ∀ b ∈ bs, 0 < b.2)
    (hc₀ : ∀ c ∈ cs, 0 < c.2) (h : ∀ x, Covers bs x ↔ Covers cs x) : bs = cs := by
  induction bs generalizing cs with
  | nil =>
    cases cs with
    | nil => rfl
    | cons c cs =>
      have := hc₀ c List.mem_cons_self
      obtain ⟨d, hd, -⟩ := (h c.1).mpr (covers_cons.mpr (Or.inl (by omega)))
      exact absurd hd List.not_mem_nil
  | cons b bs ih =>
    have hb₁ := hb₀ b List.mem_cons_self
    cases cs with
    | nil =>
      obtain ⟨d, hd, -⟩ := (h b.1).mp (covers_cons.mpr (Or.inl (by omega)))
      exact absurd hd List.not_mem_nil
    | cons c cs =>
      obtain rfl := hb.head_eq hc hb₁ (hc₀ c List.mem_cons_self) h
      refine congrArg (b :: ·) (ih (List.pairwise_cons.mp hb).2 (List.pairwise_cons.mp hc).2
        (fun d hd => hb₀ d (List.mem_cons_of_mem _ hd))
        (fun d hd => hc₀ d (List.mem_cons_of_mem _ hd)) fun x => ?_)
      constructor
      · intro hx
        have := hb.lt_of_covers hx
        exact (covers_cons.mp ((h x).mp (covers_cons.mpr (Or.inr hx)))).resolve_left (by omega)
      · intro hx
        have := hc.lt_of_covers hx
        exact (covers_cons.mp ((h x).mpr (covers_cons.mpr (Or.inr hx)))).resolve_left (by omega)

theorem tiles_covers (ht : Tiles lo hi (bs ++ cs)) {x : ℕ} :
    Covers bs x ↔ lo ≤ x ∧ x < hi ∧ ¬ Covers cs x := by
  constructor
  · rintro ⟨b, hb, hx⟩
    have hi := ht.inside b (List.mem_append_left _ hb)
    refine ⟨by omega, by omega, ?_⟩
    rintro ⟨c, hc, hx'⟩
    have := (List.pairwise_append.mp ht.apart).2.2 b hb c hc
    simp only [Apart] at this
    omega
  · rintro ⟨h₁, h₂, h₃⟩
    obtain ⟨b, hb, hx⟩ := ht.cover x h₁ h₂
    rcases List.mem_append.mp hb with hb | hb
    · exact ⟨b, hb, hx⟩
    · exact absurd ⟨b, hb, hx⟩ h₃

/-- **The blocks in use determine the free list.** -/
theorem eq_of_tiles {ds : List Blk} (hb : Tiles lo hi (bs ++ ds)) (hc : Tiles lo hi (cs ++ ds))
    (hsb : Spaced bs) (hsc : Spaced cs) : bs = cs := by
  refine hsb.eq_of_covers hsc (fun b h => hb.pos b (List.mem_append_left _ h))
    (fun c h => hc.pos c (List.mem_append_left _ h)) fun x => ?_
  rw [tiles_covers hb, tiles_covers hc]

end FreeList
