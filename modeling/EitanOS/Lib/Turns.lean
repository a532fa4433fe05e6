import Mathlib.Algebra.Group.Nat.Defs
import Mathlib.Data.List.Rotate
import Mathlib.Tactic.Common

/-!
# Taking turns

A ring with a cursor, as a list: the node after the cursor comes first, the cursor last. `pick` moves
the cursor. A node that passes the test `out` is taken out when it comes first, *and the node behind
it is passed over*; the first one met that does not pass is the new cursor.

* **`pick_sublist`**: only nodes that pass the test go, and the others keep their cyclic order.
* `pick_append`: a block of nodes that all pass loses every second one.
* **`pick_eq_iff`**: when the cursor ends at the first node that does not pass and nothing but the
  nodes in front of it is gone.
-/

namespace Turns

variable {α : Type*} {out out' : α → Bool} {a f : α} {k l r : List α}

/-- The ring after the cursor has moved. -/
def pick (out : α → Bool) : List α → List α
  | [] => []
  | a :: l => if out a then pick out (l.rotate 1) else l ++ [a]
termination_by l => l.length
decreasing_by simp

@[simp] theorem pick_nil : pick out [] = [] := by rw [pick]

theorem pick_cons_of_out (h : out a = true) : pick out (a :: l) = pick out (l.rotate 1) := by
  rw [pick, if_pos h]

theorem pick_cons_of_not (h : out a = false) : pick out (a :: l) = l ++ [a] := by
  rw [pick, if_neg (by simp [h])]

theorem pick_congr (h : ∀ a ∈ l, out a = out' a) : pick out l = pick out' l := by
  induction l using pick.induct out with
  | case1 => simp
  | case2 a l ha ih =>
    have ha' : out' a = true := (h a List.mem_cons_self).symm.trans ha
    rw [pick_cons_of_out ha, pick_cons_of_out ha']
    exact ih fun b hb => h b (List.mem_cons_of_mem _ (List.mem_rotate.mp hb))
  | case3 a l ha =>
    have ha : out a = false := by simpa using ha
    rw [pick_cons_of_not ha, pick_cons_of_not ((h a List.mem_cons_self).symm.trans ha)]

/-! ## What is taken out -/

theorem exists_sublist_of_rotate (h : k.Sublist (l.rotate 1)) : ∃ k', k'.Sublist l ∧ k ~r k' := by
  cases l with
  | nil => exact ⟨k, h, List.IsRotated.refl k⟩
  | cons a l =>
    rw [List.rotate_cons_succ, List.rotate_zero] at h
    obtain ⟨k₁, k₂, rfl, h₁, h₂⟩ := List.sublist_append_iff.mp h
    exact ⟨k₂ ++ k₁, h₂.append h₁, List.isRotated_append⟩

/-- **The nodes that stay** are those that fail the test, and maybe others, in their cyclic order. -/
theorem pick_sublist (out : α → Bool) (l : List α) :
    ∃ k, k.Sublist l ∧ pick out l ~r k ∧ ∀ a ∈ l, a ∉ k → out a = true := by
  induction l using pick.induct out with
  | case1 => exact ⟨[], List.Sublist.refl _, by simp, by simp⟩
  | case2 a l ha ih =>
    obtain ⟨k, hk, hr, hout⟩ := ih
    obtain ⟨k', hk', hr'⟩ := exists_sublist_of_rotate hk
    rw [pick_cons_of_out ha]
    refine ⟨k', hk'.cons a, hr.trans hr', List.forall_mem_cons.mpr ⟨fun _ => ha, fun b hb hbk => ?_⟩⟩
    exact hout b (List.mem_rotate.mpr hb) fun h => hbk (hr'.mem_iff.mp h)
  | case3 a l ha =>
    rw [pick_cons_of_not (by simpa using ha)]
    exact ⟨a :: l, List.Sublist.refl _, List.isRotated_concat a l, fun b hb h => absurd hb h⟩

theorem mem_of_mem_pick (h : a ∈ pick out l) : a ∈ l := by
  obtain ⟨k, hk, hr, -⟩ := pick_sublist out l
  exact hk.subset (hr.mem_iff.mp h)

/-- **The new cursor** fails the test, if any node does. -/
theorem pick_cursor (h : ∃ a ∈ l, out a = false) (e : r ++ [f] = pick out l) : out f = false := by
  induction l using pick.induct out with
  | case1 => simp at h
  | case2 a l ha ih =>
    obtain ⟨b, hb, hf⟩ := h
    have hb : b ∈ l := (List.mem_cons.mp hb).resolve_left (by rintro rfl; simp [ha] at hf)
    exact ih ⟨b, List.mem_rotate.mpr hb, hf⟩ (e.trans (pick_cons_of_out ha))
  | case3 a l ha =>
    have ha : out a = false := by simpa using ha
    rw [pick_cons_of_not ha] at e
    obtain ⟨-, e⟩ := List.append_inj' e rfl
    exact (List.cons.inj e).1 ▸ ha

/-! ## Whether turns are taken in order -/

/-- Every second node. -/
def seconds : List α → List α
  | [] => []
  | [_] => []
  | _ :: b :: l => b :: seconds l

theorem length_seconds (l : List α) : (seconds l).length = l.length / 2 := by
  induction l using seconds.induct with
  | case1 => simp [seconds]
  | case2 => simp [seconds]
  | case3 a b l ih =>
    simp only [seconds, List.length_cons, ih]
    omega

theorem seconds_sublist (l : List α) : (seconds l).Sublist l := by
  induction l using seconds.induct with
  | case1 => simp [seconds]
  | case2 => simp [seconds]
  | case3 a b l ih =>
    rw [seconds]
    exact (ih.cons_cons b).cons a

/-- **Through a block of nodes that pass**: the odd ones are taken out, the even ones passed over. -/
theorem pick_append (h : ∀ a ∈ k, out a = true) :
    pick out (k ++ l) = pick out ((l ++ seconds k).rotate (k.length % 2)) := by
  induction k using seconds.induct generalizing l with
  | case1 => simp [seconds]
  | case2 a => simp [seconds, pick_cons_of_out (h a List.mem_cons_self)]
  | case3 a b k ih =>
    have hk : ∀ c ∈ k, out c = true := fun c hc => h c (by simp [hc])
    have hrot : (b :: (k ++ l)).rotate 1 = k ++ (l ++ [b]) := by simp
    have hmod : (a :: b :: k).length % 2 = k.length % 2 := Nat.add_mod_right _ 2
    rw [List.cons_append, pick_cons_of_out (h a List.mem_cons_self), List.cons_append, hrot, ih hk,
      hmod, seconds, List.append_assoc, List.singleton_append]

theorem pick_ne_of_cons {e : List α} (hd : (a :: (r ++ e ++ [f])).Nodup) :
    pick out (a :: (r ++ e ++ [f])) ≠ a :: r ++ [f] := by
  obtain ⟨ha, -⟩ := List.nodup_cons.mp hd
  intro h
  cases hout : out a with
  | true =>
    rw [pick_cons_of_out hout] at h
    have hm : a ∈ pick out ((r ++ e ++ [f]).rotate 1) := h ▸ List.mem_cons_self
    exact ha (List.mem_rotate.mp (mem_of_mem_pick hm))
  | false =>
    rw [pick_cons_of_not hout] at h
    obtain ⟨-, haf⟩ := List.append_inj' h rfl
    exact ha (by simp [(List.cons.inj haf).1])

/-- **Turns are taken in order** if and only if the first node is not taken out, or all others are
and their number is one less than a power of two. -/
theorem pick_eq_iff (hd : (k ++ f :: r).Nodup) (hk : ∀ a ∈ k, out a = true) (hf : out f = false) :
    pick out (k ++ f :: r) = r ++ [f] ↔ k = [] ∨ r = [] ∧ ∃ n, k.length + 1 = 2 ^ n := by
  induction hn : k.length using Nat.strong_induction_on generalizing k r with
  | _ n ih =>
    subst hn
    have hlen := length_seconds k
    rw [pick_append hk]
    rcases Nat.mod_two_eq_zero_or_one k.length with hpar | hpar
    · -- the cursor stops at `f`, with half of the block behind it
      rw [hpar, List.rotate_zero, List.cons_append, pick_cons_of_not hf]
      constructor
      · intro h
        have hl := congrArg List.length h
        simp only [List.length_append, List.length_singleton, hlen] at hl
        exact Or.inl (List.length_eq_zero_iff.mp (by omega))
      · rintro (rfl | ⟨-, n, hpow⟩)
        · simp [seconds]
        · cases n with
          | zero =>
            obtain rfl : k = [] := List.length_eq_zero_iff.mp (by simpa using hpow)
            simp [seconds]
          | succ n => rw [Nat.pow_succ] at hpow; omega
    · -- the last of the block is taken out and `f` is passed over
      have hne : k ≠ [] := by rintro rfl; simp at hpar
      have hrot : ((f :: r) ++ seconds k).rotate 1 = r ++ seconds k ++ [f] := by simp
      rw [hpar, hrot]
      have hd' : (r ++ seconds k ++ [f]).Nodup := by
        have hp : (k ++ f :: r).Perm (r ++ k ++ [f]) :=
          ((List.perm_append_comm : (k ++ f :: r).Perm (f :: r ++ k))).trans
            (List.perm_append_singleton f (r ++ k)).symm
        exact (hp.nodup_iff.mp hd).sublist
          (((List.Sublist.refl r).append (seconds_sublist k)).append (List.Sublist.refl [f]))
      cases r with
      | nil =>
        rw [List.nil_append] at hd' ⊢
        have hs : ∀ a ∈ seconds k, out a = true := fun a ha => hk a ((seconds_sublist k).subset ha)
        refine (ih _ (by omega) hd' hs rfl).trans ?_
        -- `k` has one node more than twice as many as are left
        have hdouble : k.length + 1 = 2 * ((seconds k).length + 1) := by omega
        constructor
        · rintro (h | ⟨-, n, h⟩)
          · exact Or.inr ⟨rfl, 1, by simp [hdouble, h]⟩
          · exact Or.inr ⟨rfl, n + 1, by rw [hdouble, h, Nat.pow_succ']⟩
        · rintro (h | ⟨-, n, h⟩)
          · exact absurd h hne
          · cases n with
            | zero => simp [hne] at h
            | succ n =>
              rw [hdouble, Nat.pow_succ'] at h
              exact Or.inr ⟨rfl, n, Nat.eq_of_mul_eq_mul_left Nat.two_pos h⟩
      | cons a r => exact iff_of_false (pick_ne_of_cons hd') (by simp [hne])

end Turns
