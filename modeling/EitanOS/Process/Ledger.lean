import EitanOS.Process.Kernel

/-!
# Counting blocks

`Holds` says that the blocks the code holds are handed out. `Exact` says that no others are, apart from
those of a fixed `base`; and `Spends` counts the blocks that were handed out since and that nothing
points to any more.

* `exact_malloc`, `exact_free`: the rules for `malloc` and `free`.
* **`Spends.lose`**: to forget a block is to lose it.
* **`Spends.unlost_iff`**: nothing is lost exactly if the heaps are as the code left them.
-/

namespace EitanOS

open Prog

/-- The blocks of a heap among those held. -/
def blocksOf (o : ℕ) (held : List (ℕ × ℕ)) : List ℕ :=
  (held.filter fun b => b.1 = o ∧ b.2 ≠ 0).map Prod.snd

variable {sp t n p o k : ℕ} {held held' : List (ℕ × ℕ)} {base : ℕ → List ℕ} {d : Drive} {s : Kernel}
  {log : List HeapEvent}

@[simp] theorem blocksOf_nil (o : ℕ) : blocksOf o [] = [] := rfl

theorem blocksOf_cons (o : ℕ) (b : ℕ × ℕ) (held : List (ℕ × ℕ)) : blocksOf o (b :: held) =
    if b.1 = o ∧ b.2 ≠ 0 then b.2 :: blocksOf o held else blocksOf o held := by
  unfold blocksOf
  rw [List.filter_cons]
  split_ifs <;> simp_all

theorem blocksOf_perm (o : ℕ) (h : held.Perm held') : (blocksOf o held).Perm (blocksOf o held') :=
  (h.filter _).map _

theorem blocksOf_append (o : ℕ) (l l' : List (ℕ × ℕ)) :
    blocksOf o (l ++ l') = blocksOf o l ++ blocksOf o l' := by
  simp [blocksOf]

/-- The blocks that are handed out are those held and those of `base`. -/
def Accounted (base : ℕ → List ℕ) (held : List (ℕ × ℕ)) (log : List HeapEvent) : Prop :=
  ∀ o, ((liveBlocks o log).map Prod.fst).Perm (blocksOf o held ++ base o)

theorem Accounted.malloc (h : Accounted base held log) (o p n : ℕ) :
    Accounted base ((o, p) :: held) (if p = 0 then log else .malloc o p n :: log) := by
  intro o'
  rw [blocksOf_cons]
  by_cases hp : p = 0
  · simpa [hp] using h o'
  · by_cases ho : o = o'
    · simpa [hp, ho, liveBlocks] using h o'
    · simpa [hp, ho, liveBlocks] using h o'

theorem map_eraseP_fst (p : ℕ) (l : List (ℕ × ℕ)) :
    (l.eraseP fun x => x.1 = p).map Prod.fst = (l.map Prod.fst).erase p := by
  induction l with
  | nil => rfl
  | cons x l ih =>
    by_cases hx : x.1 = p
    · simp [hx]
    · rw [List.eraseP_cons_of_neg (by simpa using hx), List.map_cons, List.map_cons,
        List.erase_cons_tail (by simpa using hx), ih]

theorem Accounted.free (h : Accounted base ((o, p) :: held) log) :
    Accounted base held (if p = 0 then log else .free o p :: log) := by
  intro o'
  have ho' := h o'
  rw [blocksOf_cons] at ho'
  by_cases hp : p = 0
  · simpa [hp] using ho'
  · by_cases ho : o = o'
    · subst ho
      rw [if_pos ⟨rfl, hp⟩, List.cons_append] at ho'
      rw [if_neg hp, liveBlocks, if_pos rfl, map_eraseP_fst]
      simpa using ho'.erase p
    · simpa [hp, ho, liveBlocks] using ho'

/-- **The code holds exactly the blocks `held`** besides those of `base`, in the address space `sp`. -/
structure Exact (sp : ℕ) (base : ℕ → List ℕ) (t : ℕ) (held : List (ℕ × ℕ)) (d : Drive)
    (s : Kernel) : Prop extends Holds sp t held s where
  accounted : Accounted base held s.log
  drive : s.drive = d

namespace Exact

theorem perm (h : Exact sp base t held d s) (e : held.Perm held') : Exact sp base t held' d s :=
  ⟨h.toHolds.perm e, fun o => (h.accounted o).trans ((blocksOf_perm o e).append_right _), h.drive⟩

theorem null_iff : Exact sp base t ((o, 0) :: held) d s ↔ Exact sp base t held d s := by
  have hacc : Accounted base ((o, 0) :: held) s.log ↔ Accounted base held s.log := by
    unfold Accounted
    simp [blocksOf_cons]
  constructor
  · exact fun h => ⟨h.toHolds.leak, hacc.mp h.accounted, h.drive⟩
  · exact fun h => ⟨h.toHolds.null o, hacc.mpr h.accounted, h.drive⟩

end Exact

theorem exact_malloc (hn : n ≤ 2 ^ 64 - 24) :
    Triple KernelOk (Exact sp base t held d) (malloc n) fun p s =>
      (n = 0 → p = 0) ∧ Exact sp base t ((sp, p) :: held) d s := by
  refine malloc_rule (fun s hs => hs.ok) fun s o h p hs e em => ?_
  obtain ⟨ho, hk⟩ := hs.ok.heapInUse e
  obtain rfl := ho.trans hs.space
  refine ⟨fun h0 => ?_, hs.toHolds.malloc (.inr rfl) hk hn em, hs.accounted.malloc o p n, hs.drive⟩
  subst h0
  simpa [mallocInternal, eq_comm] using congrArg (Option.map Prod.snd) em

theorem exact_free :
    Triple KernelOk (Exact sp base t ((sp, p) :: held) d) (free p) fun _ =>
      Exact sp base t held d := by
  refine free_rule (fun s hs => hs.ok) fun s o h hs e em => ?_
  obtain ⟨ho, hk⟩ := hs.ok.heapInUse e
  obtain rfl := ho.trans hs.space
  exact ⟨hs.toHolds.free (.inr rfl) hk em, hs.accounted.free, hs.drive⟩

/-! ## Lost blocks -/

/-- Besides `held`, the code has lost `n` blocks. -/
def Spends (sp : ℕ) (base : ℕ → List ℕ) (t : ℕ) (held : List (ℕ × ℕ)) (n : ℕ) (d : Drive)
    (s : Kernel) : Prop :=
  ∃ lost : List (ℕ × ℕ), lost.length = n ∧ (∀ b ∈ lost, b.1 = sp ∧ b.2 ≠ 0) ∧
    Exact sp base t (held ++ lost) d s

namespace Spends

theorem ok (h : Spends sp base t held n d s) : KernelOk s := by
  obtain ⟨_, _, _, h⟩ := h
  exact h.ok

theorem drive (h : Spends sp base t held n d s) : s.drive = d := by
  obtain ⟨_, _, _, h⟩ := h
  exact h.drive

theorem perm (h : Spends sp base t held n d s) (e : held.Perm held') : Spends sp base t held' n d s := by
  obtain ⟨lost, hl, hb, h⟩ := h
  exact ⟨lost, hl, hb, h.perm (e.append_right lost)⟩

/-- **A block that is forgotten is lost.** -/
theorem lose (h : Spends sp base t ((sp, p) :: held) n d s) (hp : p ≠ 0) :
    Spends sp base t held (n + 1) d s := by
  obtain ⟨lost, rfl, hb, h⟩ := h
  refine ⟨(sp, p) :: lost, rfl, fun b hb' => ?_, h.perm List.perm_middle.symm⟩
  rcases List.mem_cons.mp hb' with rfl | hb'
  · exact ⟨rfl, hp⟩
  · exact hb b hb'

theorem null_iff : Spends sp base t ((o, 0) :: held) n d s ↔ Spends sp base t held n d s :=
  exists_congr fun _ => and_congr_right fun _ => and_congr_right fun _ => Exact.null_iff

theorem holds (h : Spends sp base t held n d s) : Holds sp t held s := by
  obtain ⟨lost, -, -, h⟩ := h
  have hh := h.toHolds
  exact { hh with
    live := fun b hb => hh.live b (List.mem_append_left _ hb)
    nodup := hh.nodup.sublist ((List.sublist_append_left _ _).filter _) }

theorem setDrive (h : Spends sp base t held n d s) (d' : Drive) :
    Spends sp base t held n d' { s with drive := d' } := by
  obtain ⟨lost, hl, hb, h⟩ := h
  exact ⟨lost, hl, hb, h.toHolds.setDrive d', h.accounted, rfl⟩

theorem setSpilled (h : Spends sp base t held n d s) (b : Bool) :
    Spends sp base t held n d { s with spilled := b } := by
  obtain ⟨lost, hl, hb, h⟩ := h
  exact ⟨lost, hl, hb, h.toHolds.setSpilled b, h.accounted, h.drive⟩

theorem setTable (h : Spends sp base t held n d s) (t' : ℕ) :
    Spends sp base t' held n d { s with fileTable := t' } := by
  obtain ⟨lost, hl, hb, h⟩ := h
  exact ⟨lost, hl, hb, h.toHolds.setTable t', h.accounted, h.drive⟩

end Spends

theorem spends_malloc (hk : k ≤ 2 ^ 64 - 24) :
    Triple KernelOk (Spends sp base t held n d) (malloc k) fun p s =>
      (k = 0 → p = 0) ∧ Spends sp base t ((sp, p) :: held) n d s := by
  rintro s ⟨lost, hl, hb, h⟩
  exact ((exact_malloc hk).post fun p s hs => ⟨hs.1, lost, hl, hb, hs.2⟩) s h

theorem spends_free :
    Triple KernelOk (Spends sp base t ((sp, p) :: held) n d) (free p) fun _ =>
      Spends sp base t held n d := by
  rintro s ⟨lost, hl, hb, h⟩
  exact (exact_free.post fun _ s hs => ⟨lost, hl, hb, hs⟩) s h

theorem spends_access {c : Prop} [Decidable c] :
    Triple KernelOk (Spends sp base t held n d) (access p c) fun _ s =>
      (c → p ≠ 0) ∧ Spends sp base t held n d s := by
  refine Triple.ite (fun _ => Triple.stop fun _ hs => hs.ok) fun hc => Triple.ret fun _ hs => ⟨?_, hs⟩
  exact fun h h0 => hc ⟨h0, h⟩

/-! ## From what is held, and back -/

theorem nodup_blocksOf (o : ℕ) (h : (held.filter fun b => b.2 ≠ 0).Nodup) : (blocksOf o held).Nodup := by
  have hsub : (held.filter fun b => b.1 = o ∧ b.2 ≠ 0) = (held.filter fun b => b.2 ≠ 0).filter
      fun b => b.1 = o := by
    rw [List.filter_filter]
    simp
  unfold blocksOf
  rw [hsub]
  refine List.Nodup.map_on (fun b hb b' hb' e => ?_) (h.filter _)
  have h₁ := (List.mem_filter.mp hb).2
  have h₂ := (List.mem_filter.mp hb').2
  simp only [decide_eq_true_eq] at h₁ h₂
  exact Prod.ext (h₁.trans h₂.symm) e

theorem Holds.spends (h : Holds sp t held s) : ∃ base, Spends sp base t held 0 s.drive s := by
  refine ⟨fun o => ((liveBlocks o s.log).map Prod.fst).diff (blocksOf o held), [], rfl, nofun, ?_⟩
  rw [List.append_nil]
  refine ⟨h, fun o => (List.subperm_append_diff_self_of_count_le fun p hp => ?_).symm, rfl⟩
  have hone := List.nodup_iff_count_le_one.mp (nodup_blocksOf o h.nodup) p
  obtain ⟨b, hb, rfl⟩ := List.mem_map.mp hp
  obtain ⟨hmem, hbo⟩ := List.mem_filter.mp hb
  obtain ⟨rfl, hb0⟩ := of_decide_eq_true hbo
  exact hone.trans (List.count_pos_iff.mpr (h.live b hmem hb0))

/-- The blocks of a heap other than the file table. -/
def Kernel.others (s : Kernel) (o : ℕ) : List ℕ :=
  if o = s.space ∧ s.fileTable ≠ 0 then ((liveBlocks o s.log).map Prod.fst).erase s.fileTable
  else (liveBlocks o s.log).map Prod.fst

theorem Holds.spends_others (h : Holds sp t [(sp, t)] s) :
    Spends sp s.others t [(sp, t)] 0 s.drive s := by
  refine ⟨[], rfl, nofun, h, fun o => ?_, rfl⟩
  obtain rfl := h.space
  obtain rfl := h.table
  rw [List.append_nil, blocksOf_cons, blocksOf_nil, Kernel.others]
  by_cases ho : s.space = o ∧ s.fileTable ≠ 0
  · rw [if_pos ho, if_pos ⟨ho.1.symm, ho.2⟩, List.singleton_append]
    refine List.perm_cons_erase ?_
    rw [← ho.1]
    exact h.live _ List.mem_cons_self ho.2
  · rw [if_neg ho, if_neg fun h' => ho ⟨h'.1.symm, h'.2⟩, List.nil_append]

/-- **Nothing is lost exactly if the heaps are as before**, but for the blocks `held`. -/
theorem Spends.unlost_iff (h : Spends sp base 0 held n d s) :
    n = 0 ↔ ∀ o, (s.others o).Perm (blocksOf o held ++ base o) := by
  obtain ⟨lost, rfl, hb, h⟩ := h
  have hothers (o : ℕ) : s.others o = (liveBlocks o s.log).map Prod.fst :=
    if_neg fun h' => h'.2 h.table
  constructor
  · intro h0 o
    have hacc := h.accounted o
    rw [List.length_eq_zero_iff.mp h0, List.append_nil] at hacc
    rwa [hothers]
  · intro hall
    have h₁ := ((h.accounted sp).symm.trans (hothers sp ▸ hall sp)).length_eq
    have hlost : blocksOf sp lost = lost.map Prod.snd := by
      unfold blocksOf
      rw [List.filter_eq_self.mpr fun b hb' => decide_eq_true (hb b hb')]
    rw [blocksOf_append, hlost] at h₁
    simp only [List.length_append, List.length_map] at h₁
    omega

end EitanOS
