import Mathlib.Data.List.Pairwise
import Mathlib.Data.List.Perm.Basic
import Mathlib.Order.Interval.Finset.Nat
import Mathlib.Tactic.Linarith

/-!
# Blocks tiling an interval

A block is a start and a length. `Tiles lo hi bs`: the blocks of `bs` are nonempty, pairwise apart
and together cover exactly `[lo, hi)`.

* `Tiles.perm`: the order of the list does not matter.
* **`tiles_split`**: cutting a block in two, or joining two adjacent blocks, keeps a tiling.
-/

namespace Blocks

/-- A block: its start and its length. -/
abbrev Blk := ℕ × ℕ

/-- Two blocks do not overlap. -/
def Apart (b c : Blk) : Prop := b.1 + b.2 ≤ c.1 ∨ c.1 + c.2 ≤ b.1

theorem Apart.symm {b c : Blk} (h : Apart b c) : Apart c b := Or.symm h

/-- The blocks `bs` tile `[lo, hi)` exactly, with no gap and no overlap. -/
structure Tiles (lo hi : ℕ) (bs : List Blk) : Prop where
  apart : bs.Pairwise Apart
  pos : ∀ b ∈ bs, 0 < b.2
  inside : ∀ b ∈ bs, lo ≤ b.1 ∧ b.1 + b.2 ≤ hi
  cover : ∀ x, lo ≤ x → x < hi → ∃ b ∈ bs, b.1 ≤ x ∧ x < b.1 + b.2

variable {lo hi : ℕ} {bs cs : List Blk}

theorem Tiles.perm (h : Tiles lo hi bs) (e : bs.Perm cs) : Tiles lo hi cs where
  apart := h.apart.perm e Apart.symm
  pos b hb := h.pos b (e.mem_iff.mpr hb)
  inside b hb := h.inside b (e.mem_iff.mpr hb)
  cover x h₁ h₂ := by
    obtain ⟨b, hb, hx⟩ := h.cover x h₁ h₂
    exact ⟨b, e.mem_iff.mp hb, hx⟩

theorem tiles_singleton {n : ℕ} (hn : 0 < n) : Tiles lo (lo + n) [(lo, n)] where
  apart := List.pairwise_singleton _ _
  pos b hb := by simp only [List.mem_singleton] at hb; subst hb; exact hn
  inside b hb := by simp only [List.mem_singleton] at hb; subst hb; simp
  cover x h₁ h₂ := ⟨(lo, n), List.mem_singleton.mpr rfl, h₁, h₂⟩

/-- **Cutting a block in two**, or joining two adjacent blocks. -/
theorem tiles_split {a m n : ℕ} (hm : 0 < m) (hn : 0 < n) :
    Tiles lo hi ((a, m + n) :: bs) ↔ Tiles lo hi ((a, m) :: (a + m, n) :: bs) := by
  constructor
  · intro h
    have ha := List.pairwise_cons.mp h.apart
    have hi' := h.inside (a, m + n) List.mem_cons_self
    refine ⟨?_, ?_, ?_, ?_⟩
    · refine List.pairwise_cons.mpr ⟨?_, List.pairwise_cons.mpr ⟨?_, ha.2⟩⟩
      · intro c hc
        rcases List.mem_cons.mp hc with rfl | hc
        · exact Or.inl le_rfl
        · have := ha.1 c hc
          simp only [Apart] at this ⊢
          omega
      · intro c hc
        have := ha.1 c hc
        simp only [Apart] at this ⊢
        omega
    · intro b hb
      rcases List.mem_cons.mp hb with rfl | hb
      · exact hm
      rcases List.mem_cons.mp hb with rfl | hb
      · exact hn
      · exact h.pos b (List.mem_cons_of_mem _ hb)
    · intro b hb
      rcases List.mem_cons.mp hb with rfl | hb
      · simp only at hi' ⊢; omega
      rcases List.mem_cons.mp hb with rfl | hb
      · simp only at hi' ⊢; omega
      · exact h.inside b (List.mem_cons_of_mem _ hb)
    · intro x h₁ h₂
      obtain ⟨b, hb, hx⟩ := h.cover x h₁ h₂
      rcases List.mem_cons.mp hb with rfl | hb
      · by_cases hxm : x < a + m
        · exact ⟨(a, m), List.mem_cons_self, hx.1, hxm⟩
        · exact ⟨(a + m, n), by simp, by simp only; omega, by simp only at hx ⊢; omega⟩
      · exact ⟨b, List.mem_cons_of_mem _ (List.mem_cons_of_mem _ hb), hx⟩
  · intro h
    have ha := List.pairwise_cons.mp h.apart
    have hb := List.pairwise_cons.mp ha.2
    have i₁ := h.inside (a, m) List.mem_cons_self
    have i₂ := h.inside (a + m, n) (by simp)
    refine ⟨?_, ?_, ?_, ?_⟩
    · refine List.pairwise_cons.mpr ⟨?_, hb.2⟩
      intro c hc
      have h₁ := ha.1 c (List.mem_cons_of_mem _ hc)
      have h₂ := hb.1 c hc
      have h₃ := h.pos c (List.mem_cons_of_mem _ (List.mem_cons_of_mem _ hc))
      simp only [Apart] at h₁ h₂ ⊢
      omega
    · intro b hb
      rcases List.mem_cons.mp hb with rfl | hb
      · simp only; omega
      · exact h.pos b (List.mem_cons_of_mem _ (List.mem_cons_of_mem _ hb))
    · intro b hb
      rcases List.mem_cons.mp hb with rfl | hb
      · simp only at i₁ i₂ ⊢; omega
      · exact h.inside b (List.mem_cons_of_mem _ (List.mem_cons_of_mem _ hb))
    · intro x h₁ h₂
      obtain ⟨b, hb, hx⟩ := h.cover x h₁ h₂
      rcases List.mem_cons.mp hb with rfl | hb
      · exact ⟨(a, m + n), List.mem_cons_self, hx.1, by simp only at hx ⊢; omega⟩
      rcases List.mem_cons.mp hb with rfl | hb
      · exact ⟨(a, m + n), List.mem_cons_self, by simp only at hx ⊢; omega,
          by simp only at hx ⊢; omega⟩
      · exact ⟨b, List.mem_cons_of_mem _ hb, hx⟩

theorem Tiles.apart_of_mem {b c : Blk} (h : Tiles lo hi (b :: bs)) (hc : c ∈ bs) : Apart b c :=
  (List.pairwise_cons.mp h.apart).1 c hc

theorem Tiles.length_le (h : Tiles lo hi bs) : bs.length ≤ hi - lo := by
  have hnd : (bs.map Prod.fst).Nodup := by
    rw [List.Nodup, List.pairwise_map]
    refine (List.Pairwise.and_mem.mp h.apart).imp fun {b c} ⟨hb, hc, ha⟩ e => ?_
    have := h.pos b hb
    have := h.pos c hc
    simp only [Apart] at ha
    omega
  have hsub : (bs.map Prod.fst).toFinset ⊆ Finset.Ico lo hi := fun a ha => by
    obtain ⟨b, hb, rfl⟩ := List.mem_map.mp (List.mem_toFinset.mp ha)
    have := h.pos b hb
    have := h.inside b hb
    exact Finset.mem_Ico.mpr ⟨by omega, by omega⟩
  have := Finset.card_le_card hsub
  rwa [List.toFinset_card_of_nodup hnd, List.length_map, Nat.card_Ico] at this

end Blocks
