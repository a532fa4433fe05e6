import EitanOS.Lib.Words
import Mathlib.Tactic.Common

/-!
# Text in rows

A text is written into rows of `w` cells, one cell after the other. A line break `nl` fills the rest of its
row with blanks `sp`.

* `cells w p t`: the cells of the text `t` from cell `p` on.
* `wrapped w t`: the same from the lines of the text, and **`cells_eq_wrapped`**: both agree.
* `cells_append`, `length_le_cells`: a text that is written in parts, and the room it takes.
* `grid w h t`: the first `h` rows, padded with blanks, and `grid_take`: so many characters fill them.
-/

namespace Layout

open Words

variable {α : Type*} [DecidableEq α]

section

variable (nl sp : α) (w : ℕ)

/-- The cells of a text from cell `p` on. -/
def cells : ℕ → List α → List α
  | _, [] => []
  | p, c :: t =>
    if c = nl then List.replicate (w - p % w) sp ++ cells (p + (w - p % w)) t else c :: cells (p + 1) t

/-- Lines in rows: every line but the last is filled up to the end of its last row. A line that ends where
a row ends is followed by an empty row. -/
def wrapLines : List (List α) → List α
  | [] => []
  | [l] => l
  | l :: l' :: ls => l ++ List.replicate (w - l.length % w) sp ++ wrapLines (l' :: ls)

/-- **The wrapped layout** of a text. -/
def wrapped (t : List α) : List α := wrapLines sp w (t.splitOn nl)

/-- The first `h` rows of the layout, padded with blanks. -/
def grid (h : ℕ) (t : List α) : List α := (wrapped nl sp w t ++ List.replicate (w * h) sp).take (w * h)

end

variable {nl sp : α} {w h p : ℕ} {l s t : List α}

@[simp] theorem cells_nil : cells nl sp w p [] = [] := rfl

theorem cells_cons_break : cells nl sp w p (nl :: t) =
    List.replicate (w - p % w) sp ++ cells nl sp w (p + (w - p % w)) t := by
  rw [cells, if_pos rfl]

theorem cells_cons {c : α} (hc : c ≠ nl) : cells nl sp w p (c :: t) = c :: cells nl sp w (p + 1) t := by
  rw [cells, if_neg hc]

/-- **A text in two parts.** -/
theorem cells_append :
    cells nl sp w p (s ++ t) = cells nl sp w p s ++ cells nl sp w (p + (cells nl sp w p s).length) t := by
  induction s generalizing p with
  | nil => rfl
  | cons c s ih =>
    by_cases hc : c = nl
    · rw [hc, List.cons_append, cells_cons_break, cells_cons_break, ih]
      simp [Nat.add_assoc]
    · rw [List.cons_append, cells_cons hc, cells_cons hc, ih]
      simp [Nat.add_assoc, Nat.add_comm 1]

theorem length_le_cells (hw : 0 < w) : t.length ≤ (cells nl sp w p t).length := by
  induction t generalizing p with
  | nil => exact Nat.le_refl 0
  | cons c t ih =>
    by_cases hc : c = nl
    · have hlt := Nat.mod_lt p hw
      have := ih (p := p + (w - p % w))
      rw [hc, cells_cons_break, List.length_append, List.length_replicate, List.length_cons]
      omega
    · rw [cells_cons hc, List.length_cons, List.length_cons]
      exact Nat.succ_le_succ ih

theorem cells_of_notMem (h : nl ∉ l) : cells nl sp w p l = l := by
  induction l generalizing p with
  | nil => rfl
  | cons c l ih =>
    rw [List.mem_cons, not_or] at h
    rw [cells_cons (Ne.symm h.1), ih h.2]

theorem add_sub_mod (hw : 0 < w) : (p + (w - p % w)) % w = 0 ∧ (p + (w - p % w)) / w = p / w + 1 := by
  have hlt := Nat.mod_lt p hw
  have hp := Nat.div_add_mod p w
  refine and_comm.mp ((Nat.div_mod_unique hw).mpr ⟨?_, hw⟩)
  rw [Nat.mul_add, Nat.mul_one]
  omega

/-- **The cells of a text are its wrapped layout**, from the start of a row on. -/
theorem cells_eq_wrapped (hw : 0 < w) (hp : p % w = 0) : cells nl sp w p t = wrapped nl sp w t := by
  induction t using separators_induction nl generalizing p with
  | word l hl =>
    rw [cells_of_notMem hl, wrapped, List.splitOn_eq_singleton hl]
    rfl
  | cut l t hl _ ih =>
    have hmod : (p + l.length) % w = l.length % w := by
      rw [Nat.add_mod, hp, Nat.zero_add, Nat.mod_mod]
    have hlines : (l ++ nl :: t).splitOn nl = l :: t.splitOn nl := by
      rw [List.splitOn_append_cons_self, List.splitOn_eq_singleton hl, List.singleton_append]
    rw [cells_append, cells_of_notMem hl, cells_cons_break, ih (add_sub_mod hw).1, hmod, wrapped, wrapped,
      hlines]
    obtain ⟨l', ls, hls⟩ := List.exists_cons_of_ne_nil (List.splitOn_ne_nil nl t)
    rw [hls, wrapLines, List.append_assoc]

theorem grid_take (hw : 0 < w) : grid nl sp w h (t.take (w * h)) = grid nl sp w h t := by
  by_cases ht : t.length ≤ w * h
  · rw [List.take_of_length_le ht]
  · have hlen : w * h ≤ (cells nl sp w 0 (t.take (w * h))).length := by
      refine Nat.le_trans ?_ (length_le_cells hw)
      rw [List.length_take]
      omega
    have hsplit : cells nl sp w 0 t = cells nl sp w 0 (t.take (w * h)) ++
        cells nl sp w (0 + (cells nl sp w 0 (t.take (w * h))).length) (t.drop (w * h)) := by
      rw [← cells_append, List.take_append_drop]
    unfold grid
    rw [← cells_eq_wrapped hw (Nat.zero_mod w), ← cells_eq_wrapped hw (Nat.zero_mod w), hsplit,
      List.take_append_of_le_length hlen, List.append_assoc, List.take_append_of_le_length hlen]

theorem grid_eq (hw : 0 < w) : grid nl sp w h t = (cells nl sp w 0 t).take (w * h) ++
    List.replicate (w * h - (cells nl sp w 0 t).length) sp := by
  unfold grid
  rw [← cells_eq_wrapped hw (Nat.zero_mod w), List.take_append, List.take_replicate]
  congr 2
  omega

theorem length_grid (hw : 0 < w) : (grid nl sp w h t).length = w * h := by
  rw [grid_eq hw, List.length_append, List.length_take, List.length_replicate]
  omega

end Layout
