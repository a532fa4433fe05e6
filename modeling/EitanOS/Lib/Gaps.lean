import Mathlib.Data.List.Pairwise
import Mathlib.Tactic.Common

/-!
# Looking for a gap between intervals

`firstGap needed hi p l`: the first place of `needed` consecutive points at or after `p`, before,
between or after the intervals of `l` (start, end), that ends by `hi`. **`firstGap_spec`**: for
intervals in order, the place found meets none of them. **`firstGap_isSome`**: a place is found if
there is one; **`firstGap_isSome_iff`**: where intervals may start before `p`, it is found if it lies
at or after `p` or behind one of them. `exists_split_of_sorted`: cutting a sorted list at a bound.
-/

namespace Gaps

/-- The first gap of `needed` points from `p` on. -/
def firstGap (needed hi : ℕ) : ℕ → List (ℕ × ℕ) → Option ℕ
  | p, [] => if p + needed ≤ hi then some p else none
  | p, x :: l => if p + needed ≤ x.1 then some p else firstGap needed hi x.2 l

/-- Intervals in order, without overlap. -/
abbrev Ordered (l : List (ℕ × ℕ)) : Prop := l.Pairwise fun x y => x.2 ≤ y.1

variable {needed hi p q : ℕ} {l : List (ℕ × ℕ)}

/-- **The gap found** starts at or after `p`, ends by `hi` and is apart from every interval. -/
theorem firstGap_spec (ho : Ordered l) (hl : ∀ x ∈ l, p ≤ x.1 ∧ x.1 ≤ x.2 ∧ x.2 ≤ hi)
    (e : firstGap needed hi p l = some q) :
    p ≤ q ∧ q + needed ≤ hi ∧ ∀ x ∈ l, q + needed ≤ x.1 ∨ x.2 ≤ q := by
  induction l generalizing p with
  | nil =>
    rw [firstGap] at e
    split_ifs at e with h
    obtain rfl := Option.some.inj e
    exact ⟨Nat.le_refl _, h, by simp⟩
  | cons x l ih =>
    obtain ⟨hx, ho⟩ := List.pairwise_cons.mp ho
    obtain ⟨h₁, h₂, h₃⟩ := hl x List.mem_cons_self
    rw [firstGap] at e
    split_ifs at e with h
    · obtain rfl := Option.some.inj e
      refine ⟨Nat.le_refl _, by omega, List.forall_mem_cons.mpr ⟨Or.inl h, fun y hy => Or.inl ?_⟩⟩
      have := hx y hy
      omega
    · obtain ⟨i₁, i₂, i₃⟩ := ih ho
        (fun y hy => ⟨hx y hy, (hl y (List.mem_cons_of_mem _ hy)).2⟩) e
      exact ⟨by omega, i₂, List.forall_mem_cons.mpr ⟨Or.inr i₁, i₃⟩⟩

/-- **A gap is found** if there is one. -/
theorem firstGap_isSome {a : ℕ} (h₁ : p ≤ a) (h₂ : a + needed ≤ hi)
    (hl : ∀ x ∈ l, a + needed ≤ x.1 ∨ x.2 ≤ a) : (firstGap needed hi p l).isSome := by
  induction l generalizing p with
  | nil =>
    rw [firstGap, if_pos (by omega)]
    rfl
  | cons x l ih =>
    obtain ⟨hx, hl⟩ := List.forall_mem_cons.mp hl
    rw [firstGap]
    split_ifs with h
    · rfl
    · exact ih (by omega) hl

/-- **Which gaps are found**: those from `p` on, and those behind an interval. -/
theorem firstGap_isSome_iff (ho : Ordered l)
    (hl : ∀ x ∈ l, x.1 ≤ x.2 ∧ x.2 ≤ hi) :
    (firstGap needed hi p l).isSome ↔ ∃ a, a + needed ≤ hi ∧
      (∀ x ∈ l, a + needed ≤ x.1 ∨ x.2 ≤ a) ∧ (p ≤ a ∨ ∃ x ∈ l, x.2 ≤ a) := by
  induction l generalizing p with
  | nil =>
    rw [firstGap]
    split_ifs with h
    · exact iff_of_true rfl ⟨p, h, by simp, .inl (Nat.le_refl _)⟩
    · refine iff_of_false (by simp) ?_
      rintro ⟨a, ha, -, hp | ⟨x, hx, -⟩⟩
      · omega
      · exact absurd hx List.not_mem_nil
  | cons x l ih =>
    obtain ⟨hx, ho⟩ := List.pairwise_cons.mp ho
    obtain ⟨hx₁, hl⟩ := List.forall_mem_cons.mp hl
    rw [firstGap]
    split_ifs with h
    · refine iff_of_true rfl ⟨p, by omega, List.forall_mem_cons.mpr ⟨.inl h, fun y hy => .inl ?_⟩,
        .inl (Nat.le_refl _)⟩
      have := hx y hy
      omega
    · rw [ih ho hl]
      constructor
      · rintro ⟨a, ha, hd, hp⟩
        -- behind a later interval is behind this one
        have hxa : x.2 ≤ a := by
          rcases hp with hp | ⟨y, hy, hp⟩
          · exact hp
          · have := hx y hy
            have := (hl y hy).1
            omega
        exact ⟨a, ha, List.forall_mem_cons.mpr ⟨.inr hxa, hd⟩, .inr ⟨x, List.mem_cons_self, hxa⟩⟩
      · rintro ⟨a, ha, hd, hp⟩
        obtain ⟨hdx, hd⟩ := List.forall_mem_cons.mp hd
        refine ⟨a, ha, hd, ?_⟩
        rcases hp with hp | ⟨y, hy, hp⟩
        · exact .inl (hdx.resolve_left (by omega))
        · rcases List.mem_cons.mp hy with rfl | hy
          · exact .inl hp
          · exact .inr ⟨y, hy, hp⟩

theorem ordered_of_sorted (hs : l.Pairwise fun x y => x.1 ≤ y.1)
    (hd : l.Pairwise fun x y => x.2 ≤ y.1 ∨ y.2 ≤ x.1) (hn : ∀ x ∈ l, x.1 < x.2) : Ordered l := by
  refine (hs.and hd).imp_of_mem fun {x y} _ hy h => ?_
  have := hn y hy
  omega

theorem exists_split_of_sorted {α : Type*} {f : α → ℕ} {l : List α}
    (hs : l.Pairwise fun x y => f x ≤ f y) (a : ℕ) :
    ∃ l₁ l₂, l = l₁ ++ l₂ ∧ (∀ x ∈ l₁, f x ≤ a) ∧ ∀ x ∈ l₂, a < f x := by
  induction l with
  | nil => exact ⟨[], [], rfl, by simp, by simp⟩
  | cons x l ih =>
    obtain ⟨hx, hs⟩ := List.pairwise_cons.mp hs
    by_cases h : f x ≤ a
    · obtain ⟨l₁, l₂, rfl, h₁, h₂⟩ := ih hs
      exact ⟨x :: l₁, l₂, rfl, List.forall_mem_cons.mpr ⟨h, h₁⟩, h₂⟩
    · refine ⟨[], x :: l, rfl, by simp, List.forall_mem_cons.mpr ⟨by omega, fun y hy => ?_⟩⟩
      have := hx y hy
      omega

end Gaps
