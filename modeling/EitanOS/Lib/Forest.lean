import Mathlib.Data.Set.Insert
import Mathlib.Logic.Function.Basic

/-!
# Forests of tables

Cells hold slots, and a slot may link to another cell. From each root, following at most `depth`
links along allowed slots gives the nodes below it.

* `Forest.Node F p l g`: from root `p`, the slots `l` (the last one first) lead to cell `g`.
* `Forest.Separate`: no cell is a node twice, below the same root or another one.
* `Node.iff_of_agree_above`: nodes depend on the slots of the nodes above them only.
* **`node_link`**, **`node_unlink`**, **`node_addRoot`**: the nodes after a fresh cell is linked, a
  node of full depth is unlinked, or a fresh cell becomes a root. `Separate` is kept each time.
-/

/-- Cells with slots, some of them roots. `allowed n i`: slot `i` may be followed `n` links below a
root. -/
structure Forest (Cell Slot : Type*) where
  link : Cell → Slot → Option Cell
  roots : Set Cell
  allowed : ℕ → Slot → Prop
  depth : ℕ

namespace Forest

variable {Cell Slot : Type*}

/-- From root `p`, the slots `l`, last one first, lead to the cell. -/
inductive Node (F : Forest Cell Slot) : Cell → List Slot → Cell → Prop
  | root {p} : p ∈ F.roots → Node F p [] p
  | slot {p l g i f} : Node F p l g → l.length < F.depth → F.allowed l.length i →
      F.link g i = some f → Node F p (i :: l) f

/-- No cell is a node twice. -/
def Separate (F : Forest Cell Slot) : Prop :=
  ∀ p l p' l' f, F.Node p l f → F.Node p' l' f → p = p' ∧ l = l'

variable {F F' : Forest Cell Slot} {p p' f g n : Cell} {l l' : List Slot} {i : Slot}

theorem Node.length_le (h : F.Node p l f) : l.length ≤ F.depth := by
  cases h with
  | root => exact Nat.zero_le _
  | slot _ hl => exact hl

theorem Node.unique {f' : Cell} (h : F.Node p l f) (h' : F.Node p l f') : f' = f := by
  induction h generalizing f' with
  | root =>
    cases h'
    rfl
  | slot _ _ _ e ih =>
    cases h' with
    | slot h' _ _ e' =>
      rw [ih h', e] at e'
      exact (Option.some.inj e').symm

/-- Two forests with the same roots that may differ in the slots of some cells. -/
structure Agree (F F' : Forest Cell Slot) (same : Cell → Slot → Prop) : Prop where
  roots : F'.roots = F.roots
  allowed : F'.allowed = F.allowed
  depth : F'.depth = F.depth
  link : ∀ g i, same g i → F'.link g i = F.link g i

theorem Node.of_agree {same : Cell → Slot → Prop} (ha : Agree F F' same)
    (hs : ∀ p l g i, F.Node p l g → l.length < F.depth → F.allowed l.length i →
      (F.link g i).isSome → same g i)
    (h : F.Node p l f) : F'.Node p l f := by
  induction h with
  | root hp => exact .root (ha.roots ▸ hp)
  | slot hn hl hi e ih =>
    refine .slot ih (ha.depth ▸ hl) (ha.allowed ▸ hi) ?_
    rw [ha.link _ _ (hs _ _ _ _ hn hl hi (by rw [e]; rfl)), e]

/-- **Nodes depend on the slots of the nodes above them only.** -/
theorem Node.iff_of_agree_above {same : Cell → Slot → Prop} (ha : Agree F F' same) {d : ℕ}
    (hs : ∀ p l g i, F.Node p l g → l.length < d → l.length < F.depth → F.allowed l.length i →
      same g i)
    (hd : l.length ≤ d) : F'.Node p l f ↔ F.Node p l f := by
  constructor
  · intro h
    induction h with
    | root hp => exact .root (ha.roots ▸ hp)
    | slot _ hl hi e ih =>
      rw [ha.depth] at hl
      rw [ha.allowed] at hi
      have hn := ih (Nat.le_of_succ_le hd)
      rw [ha.link _ _ (hs _ _ _ _ hn hd hl hi)] at e
      exact .slot hn hl hi e
  · intro h
    induction h with
    | root hp => exact .root (ha.roots ▸ hp)
    | slot hn hl hi e ih =>
      refine .slot (ih (Nat.le_of_succ_le hd)) (ha.depth ▸ hl) (ha.allowed ▸ hi) ?_
      rw [ha.link _ _ (hs _ _ _ _ hn hd hl hi), e]

theorem Node.iff_of_agree {same : Cell → Slot → Prop} (ha : Agree F F' same)
    (hs : ∀ p l g i, F.Node p l g → l.length < F.depth → F.allowed l.length i → same g i) :
    F'.Node p l f ↔ F.Node p l f :=
  iff_of_agree_above ha (fun p l g i hn _ => hs p l g i hn) le_rfl

theorem Separate.congr (h : F.Separate) (hn : ∀ p l f, F'.Node p l f → F.Node p l f) :
    F'.Separate :=
  fun p l p' l' f h₁ h₂ => h p l p' l' f (hn p l f h₁) (hn p' l' f h₂)

/-! ## Linking a fresh cell -/

/-- The cell is no node. -/
def Fresh (F : Forest Cell Slot) (n : Cell) : Prop := ∀ p l, ¬ F.Node p l n

/-- Slot `i` of node `g`, empty in `F`, links to the fresh cell `n` in `F'`. A cell linked above full
depth has empty slots. -/
structure Links (F F' : Forest Cell Slot) (p : Cell) (l : List Slot) (g : Cell) (i : Slot)
    (n : Cell) : Prop where
  agree : Agree F F' fun g' i' => ¬ (g' = g ∧ i' = i)
  node : F.Node p l g
  length : l.length < F.depth
  allowed : F.allowed l.length i
  empty : F.link g i = none
  linked : F'.link g i = some n
  fresh : F.Fresh n
  slots : l.length + 1 < F.depth → ∀ j, F.allowed (l.length + 1) j → F.link n j = none

theorem Links.ne (h : Links F F' p l g i n) : n ≠ g := by
  rintro rfl
  exact h.fresh p l h.node

/-- **The nodes after linking**: those before, and the new one. -/
theorem node_link (h : Links F F' p l g i n) (hs : F.Separate) :
    F'.Node p' l' f ↔ F.Node p' l' f ∨ p' = p ∧ l' = i :: l ∧ f = n := by
  have old : ∀ {p' l' f}, F.Node p' l' f → F'.Node p' l' f := by
    intro p' l' f hn
    refine hn.of_agree h.agree ?_
    rintro p₁ l₁ g₁ i₁ - - - he ⟨rfl, rfl⟩
    rw [h.empty] at he
    cases he
  constructor
  · intro hn
    induction hn with
    | root hp => exact .inl (.root (h.agree.roots ▸ hp))
    | @slot l' g' i' f hn hl hi e ih =>
      rw [h.agree.depth] at hl
      rw [h.agree.allowed] at hi
      rcases ih with ih | ⟨rfl, rfl, rfl⟩
      · by_cases hg : g' = g ∧ i' = i
        · obtain ⟨rfl, rfl⟩ := hg
          -- the slot is at this one place
          obtain ⟨rfl, rfl⟩ := hs _ _ _ _ _ ih h.node
          rw [h.linked, Option.some.injEq] at e
          exact .inr ⟨rfl, rfl, e.symm⟩
        · rw [h.agree.link _ _ hg] at e
          exact .inl (.slot ih hl hi e)
      · rw [h.agree.link _ _ fun hg => h.ne hg.1, h.slots hl _ hi] at e
        cases e
  · rintro (hn | ⟨rfl, rfl, rfl⟩)
    · exact old hn
    · refine .slot (old h.node) ?_ ?_ h.linked
      · rw [h.agree.depth]
        exact h.length
      · rw [h.agree.allowed]
        exact h.allowed

theorem Links.separate (h : Links F F' p l g i n) (hs : F.Separate) : F'.Separate := by
  intro p₁ l₁ p₂ l₂ f h₁ h₂
  rw [node_link h hs] at h₁ h₂
  rcases h₁ with h₁ | ⟨rfl, rfl, rfl⟩
  · rcases h₂ with h₂ | ⟨rfl, rfl, rfl⟩
    · exact hs _ _ _ _ _ h₁ h₂
    · exact absurd h₁ (h.fresh _ _)
  · rcases h₂ with h₂ | ⟨rfl, rfl, -⟩
    · exact absurd h₂ (h.fresh _ _)
    · exact ⟨rfl, rfl⟩

/-! ## Unlinking a node of full depth -/

/-- Slot `i` of node `g`, the last one before full depth, is empty in `F'`. -/
structure Unlinks (F F' : Forest Cell Slot) (p : Cell) (l : List Slot) (g : Cell) (i : Slot) :
    Prop where
  agree : Agree F F' fun g' i' => ¬ (g' = g ∧ i' = i)
  node : F.Node p l g
  length : l.length + 1 = F.depth
  unlinked : F'.link g i = none

/-- **The nodes after unlinking**: all but the one that was linked there. -/
theorem node_unlink (h : Unlinks F F' p l g i) (hs : F.Separate) :
    F'.Node p' l' f ↔ F.Node p' l' f ∧ ¬ (p' = p ∧ l' = i :: l) := by
  constructor
  · intro hn
    induction hn with
    | root hp => exact ⟨.root (h.agree.roots ▸ hp), fun e => by cases e.2⟩
    | @slot l' g' i' f hn hl hi e ih =>
      rw [h.agree.depth] at hl
      rw [h.agree.allowed] at hi
      have hg : ¬ (g' = g ∧ i' = i) := by
        rintro ⟨rfl, rfl⟩
        rw [h.unlinked] at e
        cases e
      rw [h.agree.link _ _ hg] at e
      refine ⟨.slot ih.1 hl hi e, ?_⟩
      rintro ⟨rfl, el⟩
      cases el
      exact hg ⟨h.node.unique ih.1, rfl⟩
  · rintro ⟨hn, hne⟩
    induction hn with
    | root hp => exact .root (h.agree.roots ▸ hp)
    | @slot l' g' i' f hn hl hi e ih =>
      have hg : ¬ (g' = g ∧ i' = i) := by
        rintro ⟨rfl, rfl⟩
        obtain ⟨rfl, rfl⟩ := hs _ _ _ _ _ hn h.node
        exact hne ⟨rfl, rfl⟩
      refine .slot (ih ?_) (h.agree.depth ▸ hl) (h.agree.allowed ▸ hi) ?_
      · -- a node of full depth has nothing below it
        rintro ⟨-, rfl⟩
        rw [← h.length] at hl
        exact absurd hl (Nat.lt_irrefl _)
      · rw [h.agree.link _ _ hg, e]

theorem Unlinks.separate (h : Unlinks F F' p l g i) (hs : F.Separate) : F'.Separate :=
  hs.congr fun _ _ _ hn => ((node_unlink h hs).1 hn).1

/-! ## A new root -/

/-- The fresh cell `n`, whose slots are empty, is a root of `F'` too. -/
structure AddsRoot (F F' : Forest Cell Slot) (n : Cell) : Prop where
  roots : F'.roots = insert n F.roots
  allowed : F'.allowed = F.allowed
  depth : F'.depth = F.depth
  link : F'.link = F.link
  fresh : F.Fresh n
  slots : ∀ j, F.allowed 0 j → F.link n j = none

/-- **The nodes with the new root**: those before, and the root. -/
theorem node_addRoot (h : AddsRoot F F' n) :
    F'.Node p' l' f ↔ F.Node p' l' f ∨ p' = n ∧ l' = [] ∧ f = n := by
  constructor
  · intro hn
    induction hn with
    | root hp =>
      rw [h.roots] at hp
      rcases hp with rfl | hp
      · exact .inr ⟨rfl, rfl, rfl⟩
      · exact .inl (.root hp)
    | slot _ hl hi e ih =>
      rw [h.depth] at hl
      rw [h.allowed] at hi
      rw [h.link] at e
      rcases ih with ih | ⟨rfl, rfl, rfl⟩
      · exact .inl (.slot ih hl hi e)
      · rw [h.slots _ hi] at e
        cases e
  · rintro (hn | ⟨rfl, rfl, rfl⟩)
    · induction hn with
      | root hp => exact .root (h.roots ▸ .inr hp)
      | slot _ hl hi e ih => exact .slot ih (h.depth ▸ hl) (h.allowed ▸ hi) (h.link ▸ e)
    · exact .root (h.roots ▸ .inl rfl)

theorem AddsRoot.separate (h : AddsRoot F F' n) (hs : F.Separate) : F'.Separate := by
  intro p₁ l₁ p₂ l₂ f h₁ h₂
  rw [node_addRoot h] at h₁ h₂
  rcases h₁ with h₁ | ⟨rfl, rfl, rfl⟩
  · rcases h₂ with h₂ | ⟨rfl, rfl, rfl⟩
    · exact hs _ _ _ _ _ h₁ h₂
    · exact absurd h₁ (h.fresh _ _)
  · rcases h₂ with h₂ | ⟨rfl, rfl, -⟩
    · exact absurd h₂ (h.fresh _ _)
    · exact ⟨rfl, rfl⟩

end Forest
