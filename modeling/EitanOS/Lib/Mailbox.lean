import Mathlib.Data.List.Perm.Basic

/-!
# A cell for one value

A writer puts values into one cell, and readers take them out. A value that is still there when the next one
comes is lost.

* `Op`: the accesses to the cell; `after`, `puts`, `taken`, `lost`: what they leave, put, take and lose.
* **`perm`**: every value that was put was taken once, or is lost, or is still there.
* **`taken_sublist`**: the values are taken in the order in which they were put.
* **`taken_eq`**: without a loss, all of them are.
-/

namespace Mailbox

variable {ι α : Type}

/-- An access: something is put into the cell, or the cell is emptied by it, or the reader `i` takes what is
there. -/
inductive Op (ι α : Type)
  | put (v : Option α)
  | take (i : ι)

/-- What an access leaves in the cell. -/
def Op.leaves : Op ι α → Option α
  | put v => v
  | take _ => none

/-- The cell after some accesses. -/
def after (c : Option α) (ops : List (Op ι α)) : Option α := ops.foldl (fun _ o => o.leaves) c

/-- The values that are put. -/
def puts : List (Op ι α) → List α
  | [] => []
  | .put v :: ops => v.toList ++ puts ops
  | .take _ :: ops => puts ops

/-- The values that are taken, with their readers. -/
def taken : Option α → List (Op ι α) → List (ι × α)
  | _, [] => []
  | _, .put v :: ops => taken v ops
  | c, .take i :: ops => (c.map (i, ·)).toList ++ taken none ops

/-- The values that are still there when the next one is put. -/
def lost : Option α → List (Op ι α) → List α
  | _, [] => []
  | c, .put v :: ops => c.toList ++ lost v ops
  | _, .take _ :: ops => lost none ops

variable {c : Option α} {ops ops' : List (Op ι α)} {v : Option α} {i : ι}

@[simp] theorem after_nil : after c ([] : List (Op ι α)) = c := rfl
@[simp] theorem after_put : after c (.put v :: ops) = after v ops := rfl
@[simp] theorem after_take : after c (.take i :: ops) = after none ops := rfl

theorem after_append : after c (ops ++ ops') = after (after c ops) ops' := List.foldl_append

theorem taken_append : taken c (ops ++ ops') = taken c ops ++ taken (after c ops) ops' := by
  induction ops generalizing c with
  | nil => rfl
  | cons o ops ih => cases o <;> simp [taken, ih]

theorem map_snd_toList (c : Option α) (i : ι) : ((c.map (i, ·)).toList).map Prod.snd = c.toList := by
  cases c <;> rfl

/-- **Every value has one fate.** -/
theorem perm (c : Option α) (ops : List (Op ι α)) :
    (c.toList ++ puts ops).Perm ((taken c ops).map Prod.snd ++ (lost c ops ++ (after c ops).toList)) := by
  induction ops generalizing c with
  | nil => simp [puts, taken, lost]
  | cons o ops ih =>
    cases o with
    | put v =>
      -- What was there before is lost, and moves behind everything that is taken later.
      have h : (c.toList ++ (v.toList ++ puts ops)).Perm
          (c.toList ++ ((taken v ops).map Prod.snd ++ (lost v ops ++ (after v ops).toList))) := (ih v).append_left _
      refine h.trans ?_
      simp only [taken, lost, after_put, ← List.append_assoc]
      exact (List.perm_append_comm.append_right _).append_right _
    | take i =>
      simp only [puts, taken, lost, after_take, List.map_append, map_snd_toList, List.append_assoc]
      exact (ih none).append_left _

/-- **Order is kept.** -/
theorem taken_sublist (c : Option α) (ops : List (Op ι α)) :
    ((taken c ops).map Prod.snd).Sublist (c.toList ++ puts ops) := by
  induction ops generalizing c with
  | nil => simp [taken]
  | cons o ops ih =>
    cases o with
    | put v => exact (ih v).trans (List.sublist_append_right _ _)
    | take i =>
      simp only [puts, taken, List.map_append, map_snd_toList]
      exact (ih none).append_left _

/-- **Without a loss** the values that are taken are all those that were put, up to the one still there. -/
theorem taken_eq (h : lost c ops = []) :
    (taken c ops).map Prod.snd ++ (after c ops).toList = c.toList ++ puts ops := by
  induction ops generalizing c with
  | nil => simp [taken, puts]
  | cons o ops ih =>
    cases o with
    | put v =>
      obtain ⟨hc, hl⟩ := List.append_eq_nil_iff.1 h
      simp only [taken, after_put, puts, ih hl, hc, List.nil_append]
    | take i =>
      simp only [taken, after_take, puts, List.map_append, map_snd_toList, List.append_assoc, ih h]
      rfl

end Mailbox
