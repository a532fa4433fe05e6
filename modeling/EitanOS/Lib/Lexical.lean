import Mathlib.Data.List.Basic
import Mathlib.Data.List.Count
import Mathlib.Data.List.Infix
import Mathlib.Algebra.Order.BigOperators.Group.List
import Mathlib.Algebra.Order.Ring.Nat
import Mathlib.Tactic.Common

/-!
# Lexical paths

A path is a list of names, of which `dot` stands for the place itself and `dotdot` for the one above.

* `lexical`: the names that are left when these are resolved without looking anything up.
* `capped cap`: the same with room for `cap` names at a time, where further ones are lost.
* **`capped_eq_lexical`**: both agree while there is room, and **`length_capped_lt`**: once a name is
  lost they do not, unless every name is taken back.
-/

namespace Lexical

variable {γ : Type*} [DecidableEq γ]

section

variable (dot dotdot : γ)

/-- One name, without a bound. -/
def lexStep (kept : List γ) (c : γ) : List γ :=
  if c = dotdot then kept.dropLast else if c = dot then kept else kept ++ [c]

/-- One name, with room for `cap` names. -/
def capStep (cap : ℕ) (kept : List γ) (c : γ) : List γ :=
  if c = dotdot then kept.dropLast
  else if c = dot then kept
  else if kept.length < cap then kept ++ [c] else kept

/-- The names that are left of a path. -/
def lexical (cs : List γ) : List γ := cs.foldl (lexStep dot dotdot) []

/-- The names that are left with room for `cap` of them. -/
def capped (cap : ℕ) (cs : List γ) : List γ := cs.foldl (capStep dot dotdot cap) []

/-- A name that is neither of the special ones. -/
def Plain (c : γ) : Prop := c ≠ dot ∧ c ≠ dotdot

/-- No part of the path has more than `cap` names left. -/
def NeverDeep (cap : ℕ) (cs : List γ) : Prop := ∀ p, p <+: cs → (lexical dot dotdot p).length ≤ cap

end

instance (dot dotdot : γ) (cap : ℕ) (cs : List γ) : Decidable (NeverDeep dot dotdot cap cs) :=
  decidable_of_iff (∀ p ∈ cs.inits, (lexical dot dotdot p).length ≤ cap)
    (forall_congr' fun p => imp_congr_left (List.mem_inits p cs))

variable {dot dotdot c : γ} {cap : ℕ} {cs ds kept full : List γ}

theorem capStep_plain (h : Plain dot dotdot c) :
    capStep dot dotdot cap kept c = if kept.length < cap then kept ++ [c] else kept := by
  rw [capStep, if_neg h.2, if_neg h.1]

theorem lexStep_plain (h : Plain dot dotdot c) : lexStep dot dotdot kept c = kept ++ [c] := by
  rw [lexStep, if_neg h.2, if_neg h.1]

theorem capStep_subset {x : γ} (h : x ∈ capStep dot dotdot cap kept c) :
    x ∈ kept ∨ x = c ∧ Plain dot dotdot c := by
  unfold capStep at h
  split_ifs at h with h₁ h₂ h₃
  · exact .inl (List.dropLast_subset _ h)
  · exact .inl h
  · rcases List.mem_append.mp h with h | h
    · exact .inl h
    · exact .inr ⟨List.mem_singleton.mp h, h₂, h₁⟩
  · exact .inl h

/-- **The names that are left are plain names of the path.** -/
theorem mem_foldl_capStep {x : γ} (h : x ∈ cs.foldl (capStep dot dotdot cap) kept) :
    x ∈ kept ∨ x ∈ cs ∧ Plain dot dotdot x := by
  induction cs generalizing kept with
  | nil => exact .inl h
  | cons c cs ih =>
    rcases ih h with h | ⟨h, hp⟩
    · rcases capStep_subset h with h | ⟨rfl, hp⟩
      · exact .inl h
      · exact .inr ⟨List.mem_cons_self, hp⟩
    · exact .inr ⟨List.mem_cons_of_mem _ h, hp⟩

theorem mem_capped {x : γ} (h : x ∈ capped dot dotdot cap cs) : x ∈ cs ∧ Plain dot dotdot x :=
  (mem_foldl_capStep h).resolve_left List.not_mem_nil

theorem length_capStep_le (h : kept.length ≤ cap) : (capStep dot dotdot cap kept c).length ≤ cap := by
  unfold capStep
  split_ifs
  · rw [List.length_dropLast]
    omega
  · exact h
  · rw [List.length_append, List.length_singleton]
    omega
  · exact h

theorem length_foldl_capStep_le (h : kept.length ≤ cap) :
    (cs.foldl (capStep dot dotdot cap) kept).length ≤ cap := by
  induction cs generalizing kept with
  | nil => exact h
  | cons c cs ih => exact ih (length_capStep_le h)

theorem length_capped_le : (capped dot dotdot cap cs).length ≤ cap :=
  length_foldl_capStep_le (Nat.zero_le cap)

theorem sum_foldl_capStep_le (f : γ → ℕ) :
    ((cs.foldl (capStep dot dotdot cap) kept).map f).sum ≤ (kept.map f).sum + (cs.map f).sum := by
  induction cs generalizing kept with
  | nil => simp
  | cons c cs ih =>
    have hstep : ((capStep dot dotdot cap kept c).map f).sum ≤ (kept.map f).sum + f c := by
      unfold capStep
      split_ifs
      · have : (kept.dropLast.map f).sum ≤ (kept.map f).sum :=
          ((List.dropLast_sublist kept).map f).sum_le_sum fun _ _ => Nat.zero_le _
        omega
      · omega
      · simp
      · omega
    calc ((cs.foldl (capStep dot dotdot cap) (capStep dot dotdot cap kept c)).map f).sum
        ≤ ((capStep dot dotdot cap kept c).map f).sum + (cs.map f).sum := ih
      _ ≤ (kept.map f).sum + f c + (cs.map f).sum := Nat.add_le_add_right hstep _
      _ = (kept.map f).sum + ((c :: cs).map f).sum := by
        rw [List.map_cons, List.sum_cons, Nat.add_assoc]

theorem sum_capped_le (f : γ → ℕ) : ((capped dot dotdot cap cs).map f).sum ≤ (cs.map f).sum :=
  (sum_foldl_capStep_le f).trans (by simp)

/-- **Plain names are kept** while there is room. -/
theorem foldl_capStep_plain (h : ∀ c ∈ cs, Plain dot dotdot c) (hl : kept.length + cs.length ≤ cap) :
    cs.foldl (capStep dot dotdot cap) kept = kept ++ cs := by
  induction cs generalizing kept with
  | nil => simp
  | cons c cs ih =>
    rw [List.forall_mem_cons] at h
    rw [List.length_cons] at hl
    rw [List.foldl_cons, capStep_plain h.1, if_pos (by omega), ih h.2 (by simp; omega), List.append_assoc,
      List.singleton_append]

theorem countP_mul_le_sum (f : γ → ℕ) (c : γ) : cs.countP (· = c) * f c ≤ (cs.map f).sum := by
  induction cs with
  | nil => simp
  | cons d cs ih =>
    rw [List.map_cons, List.sum_cons]
    by_cases hd : d = c
    · rw [List.countP_cons_of_pos (by simpa using hd), Nat.add_mul, hd]
      omega
    · rw [List.countP_cons_of_neg (by simpa using hd)]
      omega

/-! ## With and without a bound -/

theorem mem_foldl_lexStep {x : γ} (h : x ∈ cs.foldl (lexStep dot dotdot) kept) : x ∈ kept ∨ x ∈ cs := by
  induction cs generalizing kept with
  | nil => exact .inl h
  | cons c cs ih =>
    rcases ih h with hx | hx
    · unfold lexStep at hx
      split_ifs at hx
      · exact .inl (List.dropLast_subset _ hx)
      · exact .inl hx
      · rcases List.mem_append.mp hx with hx | hx
        · exact .inl hx
        · exact .inr (List.mem_cons.mpr (.inl (List.mem_singleton.mp hx)))
    · exact .inr (List.mem_cons_of_mem c hx)

theorem mem_lexical {x : γ} (h : x ∈ lexical dot dotdot cs) : x ∈ cs :=
  (mem_foldl_lexStep h).resolve_left List.not_mem_nil

theorem capStep_eq_lexStep (h : (lexStep dot dotdot kept c).length ≤ cap) :
    capStep dot dotdot cap kept c = lexStep dot dotdot kept c := by
  unfold lexStep at h ⊢
  unfold capStep
  split_ifs at h ⊢ with h₁ h₂ h₃
  · rfl
  · rfl
  · rfl
  · rw [List.length_append, List.length_singleton] at h
    omega

theorem foldl_capStep_eq (h : ∀ p, p <+: cs → (p.foldl (lexStep dot dotdot) kept).length ≤ cap) :
    cs.foldl (capStep dot dotdot cap) kept = cs.foldl (lexStep dot dotdot) kept := by
  induction cs generalizing kept with
  | nil => rfl
  | cons c cs ih =>
    have hc := h [c] (by simp)
    rw [List.foldl_cons, List.foldl_cons, capStep_eq_lexStep hc]
    exact ih fun p hp => h (c :: p) (List.cons_prefix_cons.mpr ⟨rfl, hp⟩)

/-- **While there is room, the bound does not matter.** -/
theorem capped_eq_lexical (h : NeverDeep dot dotdot cap cs) :
    capped dot dotdot cap cs = lexical dot dotdot cs :=
  foldl_capStep_eq h

theorem length_foldl_capStep_lt (h : kept.length < full.length) (hc : cs.countP (· = dotdot) ≤ kept.length) :
    (cs.foldl (capStep dot dotdot cap) kept).length < (cs.foldl (lexStep dot dotdot) full).length := by
  induction cs generalizing kept full with
  | nil => exact h
  | cons c cs ih =>
    rw [List.foldl_cons, List.foldl_cons]
    by_cases h₁ : c = dotdot
    · have hcount : (c :: cs).countP (· = dotdot) = cs.countP (· = dotdot) + 1 :=
        List.countP_cons_of_pos (by simpa using h₁)
      refine ih ?_ ?_
      · rw [capStep, lexStep, if_pos h₁, if_pos h₁, List.length_dropLast, List.length_dropLast]
        omega
      · rw [capStep, if_pos h₁, List.length_dropLast]
        omega
    · have hcount : (c :: cs).countP (· = dotdot) = cs.countP (· = dotdot) :=
        List.countP_cons_of_neg (by simpa using h₁)
      by_cases h₂ : c = dot
      · rw [capStep, lexStep, if_neg h₁, if_neg h₁, if_pos h₂, if_pos h₂]
        exact ih h (by omega)
      · rw [capStep_plain ⟨h₂, h₁⟩, lexStep_plain ⟨h₂, h₁⟩]
        split_ifs
        · exact ih (by simpa using h) (by simp; omega)
        · exact ih (by simp; omega) (by omega)

theorem length_foldl_lt (hk : kept.length ≤ cap)
    (h : ∃ p, p <+: cs ∧ cap < (p.foldl (lexStep dot dotdot) kept).length) (hc : cs.countP (· = dotdot) ≤ cap) :
    (cs.foldl (capStep dot dotdot cap) kept).length < (cs.foldl (lexStep dot dotdot) kept).length := by
  induction cs generalizing kept with
  | nil =>
    obtain ⟨p, hp, hlt⟩ := h
    rw [List.prefix_nil.mp hp, List.foldl_nil] at hlt
    omega
  | cons c cs ih =>
    have hcount : cs.countP (· = dotdot) ≤ (c :: cs).countP (· = dotdot) :=
      (List.sublist_cons_self c cs).countP_le
    rw [List.foldl_cons, List.foldl_cons]
    by_cases hle : (lexStep dot dotdot kept c).length ≤ cap
    · rw [capStep_eq_lexStep hle]
      refine ih hle ?_ (by omega)
      obtain ⟨p, hp, hlt⟩ := h
      rcases List.prefix_cons_iff.mp hp with rfl | ⟨q, rfl, hq⟩
      · rw [List.foldl_nil] at hlt
        omega
      · exact ⟨q, hq, hlt⟩
    · -- `c` is a plain name that finds no room
      have hplain : Plain dot dotdot c := by
        by_contra hn
        refine hle ?_
        unfold lexStep
        split_ifs with h₁ h₂
        · rw [List.length_dropLast]
          omega
        · exact hk
        · exact absurd ⟨h₂, h₁⟩ hn
      rw [lexStep_plain hplain, List.length_append, List.length_singleton] at hle
      rw [capStep_plain hplain, if_neg (by omega), lexStep_plain hplain]
      exact length_foldl_capStep_lt (by simp) (by omega)

/-- **Where there is not enough room**, fewer names are left, unless more are taken back than there is
room for. -/
theorem length_capped_lt (h : ¬ NeverDeep dot dotdot cap cs) (hc : cs.countP (· = dotdot) ≤ cap) :
    (capped dot dotdot cap cs).length < (lexical dot dotdot cs).length := by
  refine length_foldl_lt (Nat.zero_le cap) ?_ hc
  by_contra hn
  exact h fun p hp => Nat.le_of_not_lt fun hlt => hn ⟨p, hp, hlt⟩

end Lexical
