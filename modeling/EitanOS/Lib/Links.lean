import Mathlib.Data.List.Basic
import Mathlib.Data.List.Nodup
import Mathlib.Data.List.Pairwise
import Mathlib.Logic.Function.Basic

/-!
# Singly linked lists threaded through a `next` map

* `Seg next p l q`: from `p`, following `next` visits exactly the nodes of `l` and arrives at `q`.
  A null-terminated list is `Seg next head l null`.
* `seg_append`, `seg_concat`: cutting a segment in two.
* `Seg.congr`, `Seg.relink`: the frame rule, and redirecting the last node.
* **`Seg.splice`**: the edit of a null-terminated list, replacing everything after a given node.
-/

namespace Links

variable {α : Type*}

/-- From `p`, the nodes of `l` in order, then `q`. -/
def Seg (next : α → α) : α → List α → α → Prop
  | p, [], q => p = q
  | p, a :: l, q => p = a ∧ Seg next (next a) l q

variable {next next' : α → α} {p q r a : α} {l l₁ l₂ : List α}

@[simp] theorem seg_nil : Seg next p [] q ↔ p = q := Iff.rfl

@[simp] theorem seg_cons : Seg next p (a :: l) q ↔ p = a ∧ Seg next (next a) l q := Iff.rfl

theorem seg_append : Seg next p (l₁ ++ l₂) q ↔ ∃ r, Seg next p l₁ r ∧ Seg next r l₂ q := by
  induction l₁ generalizing p with
  | nil => simp
  | cons b l ih => simp only [List.cons_append, seg_cons, ih, exists_and_left, and_assoc]

theorem seg_concat : Seg next p (l ++ [a]) q ↔ Seg next p l a ∧ next a = q := by
  rw [seg_append]
  constructor
  · rintro ⟨r, h, rfl, e⟩
    exact ⟨h, e⟩
  · rintro ⟨h, e⟩
    exact ⟨a, h, rfl, e⟩

/-- **Frame rule.** A segment only depends on `next` at its nodes. -/
theorem Seg.congr (h : Seg next p l q) (e : ∀ b ∈ l, next' b = next b) : Seg next' p l q := by
  induction l generalizing p with
  | nil => exact h
  | cons b l ih =>
    obtain ⟨rfl, h⟩ := h
    refine ⟨rfl, ?_⟩
    rw [e p List.mem_cons_self]
    exact ih h fun c hc => e c (List.mem_cons_of_mem _ hc)

/-- **Redirecting the last node** of a segment. -/
theorem Seg.relink (h : Seg next p (l ++ [a]) q) (hr : next' a = r)
    (e : ∀ b ∈ l, next' b = next b) : Seg next' p (l ++ [a]) r :=
  seg_concat.mpr ⟨(seg_concat.mp h).1.congr e, hr⟩

/-- **Replacing the tail** of a list from `head`: either the list starts with the new tail, or the
last node kept now points to it. -/
theorem Seg.splice {head head' v q' : α} {m : List α} (h : Seg next head (l₁ ++ l₂) q)
    (hm : Seg next' v m q') (hnil : l₁ = [] → head' = v)
    (hlast : ∀ b, l₁.getLast? = some b → head' = head ∧ next' b = v)
    (e : ∀ b ∈ l₁, l₁.getLast? ≠ some b → next' b = next b) (hd : l₁.Nodup) :
    Seg next' head' (l₁ ++ m) q' := by
  rcases List.eq_nil_or_concat l₁ with rfl | ⟨k, b, rfl⟩
  · rw [hnil rfl]
    exact hm
  obtain ⟨r, hr, -⟩ := seg_append.mp h
  obtain ⟨rfl, hb⟩ := hlast b (by simp)
  have hbk : b ∉ k := fun hb => by
    simp only [List.concat_eq_append] at hd
    exact (List.nodup_append.mp hd).2.2 b hb b (by simp) rfl
  refine seg_append.mpr ⟨v, ?_, hm⟩
  rw [List.concat_eq_append] at hr e ⊢
  refine hr.relink hb fun c hc => e c (by simp [hc]) ?_
  simp only [List.getLast?_append, List.getLast?_singleton, Option.some_or, ne_eq,
    Option.some.injEq]
  rintro rfl
  exact hbk hc

end Links
