import Mathlib.Algebra.GroupWithZero.Nat
import Mathlib.Data.List.Basic
import Mathlib.Data.List.TakeWhile
import Mathlib.Tactic.Common

/-!
# Words between separators

* `words a s`: the maximal nonempty parts of `s` without `a`, in order.
* **`words_append_cons`**: a separator cuts the words; `words_takeWhile`: the first word; **`next_word`**:
  where a scan finds the next one.
* `glue a cs`: every word behind a separator; **`words_glue`**: they are its words again.
* `sum_words_le`: how much room the words take.
-/

namespace Words

variable {α : Type*} {a : α} {c s t w : List α} {cs : List (List α)}

/-- Every word behind a separator. -/
def glue (a : α) (cs : List (List α)) : List α := cs.flatMap (a :: ·)

@[simp] theorem glue_nil : glue a [] = [] := rfl

@[simp] theorem glue_cons : glue a (c :: cs) = a :: (c ++ glue a cs) := by
  simp [glue]

theorem length_glue : (glue a cs).length = (cs.map (·.length + 1)).sum := by
  induction cs with
  | nil => rfl
  | cons c cs ih =>
    rw [glue_cons, List.map_cons, List.sum_cons, List.length_cons, List.length_append, ih]
    omega

theorem drop_length_takeWhile (p : α → Bool) (s : List α) :
    s.drop (s.takeWhile p).length = s.dropWhile p := by
  have h : (s.takeWhile p ++ s.dropWhile p).drop (s.takeWhile p).length = s.dropWhile p := List.drop_left
  rwa [List.takeWhile_append_dropWhile] at h

theorem take_length_takeWhile (p : α → Bool) (s : List α) :
    s.take (s.takeWhile p).length = s.takeWhile p :=
  (List.prefix_iff_eq_take.mp ( List.takeWhile_prefix p)).symm

theorem scan_spec {i : ℕ} (p : α → Bool) (hi : i ≤ s.length) :
    i + ((s.drop i).takeWhile p).length ≤ s.length ∧
      s.drop (i + ((s.drop i).takeWhile p).length) = (s.drop i).dropWhile p := by
  have hle := ( List.takeWhile_prefix p (l := s.drop i)).length_le
  rw [List.length_drop] at hle
  exact ⟨by omega, by rw [← List.drop_drop, drop_length_takeWhile]⟩

/-- **Induction on separators**: a list without the separator `a`, and one that is cut by it. -/
@[elab_as_elim]
theorem separators_induction {P : List α → Prop} (a : α) (s : List α) (word : ∀ w, a ∉ w → P w)
    (cut : ∀ w t, a ∉ w → P w → P t → P (w ++ a :: t)) : P s := by
  induction hn : s.length using Nat.strong_induction_on generalizing s with
  | _ n ih =>
    by_cases hs : a ∈ s
    · obtain ⟨w, t, rfl, hw⟩ := List.eq_append_cons_of_mem hs
      exact cut w t hw (word w hw) (ih t.length (by simp [← hn]; omega) t rfl)
    · exact word s hs

variable [DecidableEq α]

/-- The maximal nonempty parts without `a`. -/
def words (a : α) (s : List α) : List (List α) := (s.splitOn a).filter (· ≠ [])

theorem words_eq_splitOn_iff : words a s = s.splitOn a ↔ [] ∉ s.splitOn a := by
  rw [words, List.filter_eq_self]
  constructor
  · intro h hm
    simpa using h [] hm
  · intro h c hc
    simpa using fun e : c = [] => h (e ▸ hc)

@[simp] theorem words_nil : words a [] = [] := by
  simp [words]

/-- **A separator cuts the words.** -/
theorem words_append_cons : words a (s ++ a :: t) = words a s ++ words a t := by
  rw [words, List.splitOn_append_cons_self, List.filter_append]
  rfl

@[simp] theorem words_cons_self : words a (a :: s) = words a s :=
  (words_append_cons (s := [])).trans (by simp)

theorem words_of_notMem (h : a ∉ w) (hw : w ≠ []) : words a w = [w] := by
  simp [words, List.splitOn_eq_singleton h, hw]

theorem words_dropWhile : words a (s.dropWhile (· = a)) = words a s := by
  induction s with
  | nil => rfl
  | cons x s ih =>
    by_cases hx : x = a
    · rw [List.dropWhile_cons_of_pos (by simpa using hx), ih, hx, words_cons_self]
    · rw [List.dropWhile_cons_of_neg (by simpa using hx)]

/-- **The first word**, where no separator is in front of it. -/
theorem words_takeWhile (hs : s ≠ []) (ha : s.head? ≠ some a) :
    words a s = s.takeWhile (· ≠ a) :: words a (s.dropWhile (· ≠ a)) := by
  have hne : s.takeWhile (· ≠ a) ≠ [] := by
    cases s with
    | nil => exact absurd rfl hs
    | cons x s =>
      have hx : x ≠ a := fun e => ha (congrArg some e)
      rw [List.takeWhile_cons_of_pos (by simpa using hx)]
      exact List.cons_ne_nil _ _
  have hmem : a ∉ s.takeWhile (· ≠ a) := fun h => by simpa using List.mem_takeWhile_imp h
  conv_lhs => rw [← List.takeWhile_append_dropWhile (p := (· ≠ a)) (l := s)]
  cases hd : s.dropWhile (· ≠ a) with
  | nil => rw [List.append_nil, words_nil, words_of_notMem hmem hne]
  | cons x r =>
    have hx : x = a := by
      have hnot := List.head?_dropWhile_not (· ≠ a) s
      rw [hd] at hnot
      simpa using hnot
    rw [hx, words_append_cons, words_of_notMem hmem hne, words_cons_self, List.singleton_append]

theorem ne_nil_of_mem_words (h : c ∈ words a s) : c ≠ [] := by
  simpa using (List.mem_filter.mp h).2

/-- **The next word from `i` on** starts at `j`, behind the separators, unless they end the list. -/
theorem next_word {i j : ℕ} (hi : i ≤ s.length) (hj : j = i + ((s.drop i).takeWhile (· = a)).length) :
    j = s.length ∧ words a (s.drop i) = [] ∨
      j < s.length ∧ ∃ n, n = ((s.drop j).takeWhile (· ≠ a)).length ∧ 0 < n ∧ j + n ≤ s.length ∧
        words a (s.drop i) = (s.drop j).take n :: words a (s.drop (j + n)) := by
  obtain ⟨hjs, hdrop⟩ := scan_spec (· = a) hi
  rw [← hj] at hjs hdrop
  rw [← words_dropWhile, ← hdrop]
  rcases Nat.lt_or_eq_of_le hjs with hlt | rfl
  · have hhead : (s.drop j).head? ≠ some a := by
      rw [hdrop]
      intro e
      have hnot := List.head?_dropWhile_not (· = a) (s.drop i)
      rw [e] at hnot
      simp at hnot
    have hne : s.drop j ≠ [] := by
      rw [ne_eq, List.drop_eq_nil_iff]
      omega
    have hwords := words_takeWhile hne hhead
    obtain ⟨hns, hrest⟩ := scan_spec (· ≠ a) hjs
    refine .inr ⟨hlt, _, rfl, ?_, hns, ?_⟩
    · rw [List.length_pos_iff]
      exact ne_nil_of_mem_words (hwords ▸ List.mem_cons_self)
    · rw [take_length_takeWhile, hrest, hwords]
  · exact .inl ⟨rfl, by simp⟩

theorem mem_words (h : c ∈ words a s) : a ∉ c ∧ c ⊆ s := by
  induction s using separators_induction a with
  | word w hw =>
    by_cases he : w = []
    · simp [he] at h
    · rw [words_of_notMem hw he, List.mem_singleton] at h
      exact ⟨h ▸ hw, h ▸ List.Subset.refl _⟩
  | cut w t _ ihw iht =>
    rw [words_append_cons, List.mem_append] at h
    rcases h with h | h
    · exact ⟨(ihw h).1, fun x hx => List.mem_append_left _ ((ihw h).2 hx)⟩
    · exact ⟨(iht h).1, fun x hx => List.mem_append_right _ (List.mem_cons_of_mem _ ((iht h).2 hx))⟩

/-- **The words that were glued.** -/
theorem words_glue (h : ∀ c ∈ cs, c ≠ [] ∧ a ∉ c) : words a (glue a cs) = cs := by
  induction cs with
  | nil => simp
  | cons c cs ih =>
    rw [List.forall_mem_cons] at h
    rw [glue_cons, words_cons_self]
    cases cs with
    | nil => rw [glue_nil, List.append_nil, words_of_notMem h.1.2 h.1.1]
    | cons c' cs =>
      have ih := ih h.2
      rw [glue_cons, words_cons_self] at ih
      rw [glue_cons, words_append_cons, words_of_notMem h.1.2 h.1.1, ih, List.singleton_append]

theorem sum_words_le : ((words a s).map (·.length + 1)).sum ≤ s.length + 1 := by
  induction s using separators_induction a with
  | word w hw =>
    by_cases he : w = []
    · simp [he]
    · simp [words_of_notMem hw he]
  | cut w t _ ihw iht =>
    rw [words_append_cons, List.map_append, List.sum_append]
    simp only [List.length_append, List.length_cons]
    omega

end Words
