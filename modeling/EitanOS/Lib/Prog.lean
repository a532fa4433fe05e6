import Mathlib.Tactic.Common

/-!
# Programs over a state that may stop

A program runs on a state and either returns or stops for good; the state it stops in is kept.
`Triple F P m Q`: from every state with `P`, the program `m` returns in a state with `Q`, or stops in
one with `F`.

* `exec_bind_some`, `exec_bind_none`, **`exec_forM_range`**, `exec_forM_range_none`: running a program
  step by step.
* `Triple.bind`, `Triple.ret`, `Triple.ite`, `Triple.get`, `Triple.modify`: one rule for each way to
  build a program.
* **`Triple.forM`**, **`Triple.foldlM`**: the invariant rule for loops over a list; `Triple.forM_range`,
  **`Triple.foldlM_range`**: counted loops, with an invariant for every round.
-/

namespace Prog

/-- Programs over the state `σ`. -/
abbrev Code (σ : Type) : Type → Type := OptionT (StateM σ)

variable {σ α β : Type} {F P P' R : σ → Prop} {Q Q' : α → σ → Prop} {m : Code σ α}

/-- What the program returns, if it does not stop, and the state it leaves. -/
def exec (m : Code σ α) (s : σ) : Option α × σ := m.run.run s

/-- **Hoare triple**: `Q` where `m` returns, `F` where it stops. -/
def Triple (F P : σ → Prop) (m : Code σ α) (Q : α → σ → Prop) : Prop :=
  ∀ s, P s → match exec m s with
    | (some a, s') => Q a s'
    | (none, s') => F s'

@[simp] theorem exec_pure (a : α) (s : σ) : exec (pure a : Code σ α) s = (some a, s) := rfl

@[simp] theorem exec_get_bind (f : σ → Code σ α) (s : σ) : exec (get >>= f) s = exec (f s) s := rfl

theorem exec_bind (m : Code σ α) (f : α → Code σ β) (s : σ) :
    exec (m >>= f) s = match exec m s with
      | (some a, s') => exec (f a) s'
      | (none, s') => (none, s') := by
  unfold exec
  rw [OptionT.run_bind]
  show (match m.run.run s with
    | (x, s') => StateT.run (Option.elimM (pure x) (pure none) fun a => (f a).run) s') = _
  rcases m.run.run s with ⟨_ | a, s'⟩ <;> rfl

@[simp] theorem exec_failure (s : σ) : exec (failure : Code σ α) s = (none, s) := rfl

theorem exec_bind_some {f : α → Code σ β} {s s' : σ} {a : α} (h : exec m s = (some a, s')) :
    exec (m >>= f) s = exec (f a) s' := by
  rw [exec_bind, h]

theorem exec_bind_none {f : α → Code σ β} {s s' : σ} (h : exec m s = (none, s')) :
    exec (m >>= f) s = (none, s') := by
  rw [exec_bind, h]

theorem exec_bind_eq_some {f : α → Code σ β} {s s' : σ} {b : β} (h : exec (m >>= f) s = (some b, s')) :
    ∃ a t, exec m s = (some a, t) ∧ exec (f a) t = (some b, s') := by
  rw [exec_bind] at h
  generalize exec m s = r at h ⊢
  obtain ⟨_ | a, t⟩ := r
  · exact absurd (congrArg Prod.fst h) nofun
  · exact ⟨a, t, rfl, h⟩

theorem exec_forM_range' {f : ℕ → Code σ PUnit} {g : ℕ → σ} {i k n : ℕ}
    (h : ∀ j, i ≤ j → j < i + k → exec (f j) (g j) = (some ⟨⟩, g (j + 1))) :
    exec ((List.range' i (k + n)).forM f) (g i) = exec ((List.range' (i + k) n).forM f) (g (i + k)) := by
  induction k generalizing i with
  | zero => rw [Nat.zero_add, Nat.add_zero]
  | succ k ih =>
    rw [show k + 1 + n = (k + n) + 1 by omega, List.range'_succ]
    show exec (f i >>= fun _ => (List.range' (i + 1) (k + n)).forM f) (g i) = _
    rw [exec_bind_some (h i (Nat.le_refl i) (by omega)), ih fun j hj hk => h j (by omega) (by omega),
      show i + 1 + k = i + (k + 1) by omega]

/-- **A counted loop.** -/
theorem exec_forM_range {f : ℕ → Code σ PUnit} {g : ℕ → σ} {n : ℕ}
    (h : ∀ i < n, exec (f i) (g i) = (some ⟨⟩, g (i + 1))) :
    exec ((List.range n).forM f) (g 0) = (some ⟨⟩, g n) := by
  have hrun := exec_forM_range' (i := 0) (k := n) (n := 0) fun j _ hj => h j (by omega)
  rw [Nat.add_zero, Nat.zero_add] at hrun
  rw [List.range_eq_range', hrun]
  rfl

/-- **A counted loop that stops** in round `k`. -/
theorem exec_forM_range_none {f : ℕ → Code σ PUnit} {g : ℕ → σ} {k n : ℕ} {s' : σ}
    (h : ∀ i < k, exec (f i) (g i) = (some ⟨⟩, g (i + 1))) (hk : k < n)
    (hf : exec (f k) (g k) = (none, s')) : exec ((List.range n).forM f) (g 0) = (none, s') := by
  have hrun := exec_forM_range' (i := 0) (k := k) (n := n - k - 1 + 1) fun j _ hj => h j (by omega)
  rw [Nat.zero_add, show k + (n - k - 1 + 1) = n by omega, List.range'_succ] at hrun
  rw [List.range_eq_range', hrun]
  exact exec_bind_none hf

/-! ## Rules -/

theorem Triple.ret {a : α} (h : ∀ s, P s → Q a s) : Triple F P (pure a) Q := h

theorem Triple.stop (h : ∀ s, P s → F s) : Triple F P (failure : Code σ α) Q := h

theorem Triple.bind {f : α → Code σ β} {Q : β → σ → Prop} {R : α → σ → Prop}
    (hm : Triple F P m R) (hf : ∀ a, Triple F (R a) (f a) Q) : Triple F P (m >>= f) Q := by
  intro s hs
  have h := hm s hs
  rw [exec_bind]
  generalize exec m s = r at h ⊢
  obtain ⟨_ | a, s'⟩ := r
  · exact h
  · exact hf a s' h

theorem Triple.pre (h : Triple F P m Q) (hP : ∀ s, P' s → P s) : Triple F P' m Q :=
  fun s hs => h s (hP s hs)

theorem Triple.post (h : Triple F P m Q) (hQ : ∀ a s, Q a s → Q' a s) : Triple F P m Q' := by
  intro s hs
  have h := h s hs
  generalize exec m s = r at h ⊢
  obtain ⟨_ | a, s'⟩ := r
  · exact h
  · exact hQ a s' h

theorem Triple.trivial (P : σ → Prop) (m : Code σ α) :
    Triple (fun _ => True) P m fun _ _ => True := by
  intro s _
  split <;> exact True.intro

theorem Triple.and {F' : σ → Prop} (h : Triple F P m Q) (h' : Triple F' P' m Q') :
    Triple F (fun s => P s ∧ P' s) m fun a s => Q a s ∧ Q' a s := by
  intro s hs
  have h := h s hs.1
  have h' := h' s hs.2
  generalize exec m s = r at h h' ⊢
  obtain ⟨_ | a, s'⟩ := r
  · exact h
  · exact ⟨h, h'⟩

theorem Triple.final {s : σ} (h : Triple R P m fun _ => R) (hs : P s) : R (exec m s).2 := by
  have h := h s hs
  generalize exec m s = r at h ⊢
  obtain ⟨_ | a, s'⟩ := r
  · exact h
  · exact h

theorem Triple.returns {s : σ} (h : Triple (fun _ => False) P m Q) (hs : P s) :
    (exec m s).1.isSome := by
  have h := h s hs
  generalize exec m s = r at h ⊢
  obtain ⟨_ | a, s'⟩ := r
  · exact h.elim
  · rfl

theorem Triple.stops {s : σ} (h : Triple F P m fun _ _ => False) (hs : P s) : (exec m s).1 = none := by
  have h := h s hs
  generalize exec m s = r at h ⊢
  obtain ⟨_ | a, s'⟩ := r
  · rfl
  · exact h.elim

theorem Triple.assume {c : Prop} (h : c → Triple F P m Q) : Triple F (fun s => c ∧ P s) m Q :=
  fun s hs => h hs.1 s hs.2

theorem Triple.exists {ι : Type*} {P : ι → σ → Prop} (h : ∀ i, Triple F (P i) m Q) :
    Triple F (fun s => ∃ i, P i s) m Q := fun s ⟨i, hs⟩ => h i s hs

theorem Triple.get {f : σ → Code σ β} {Q : β → σ → Prop}
    (h : ∀ s₀, Triple F (fun s => s = s₀ ∧ P s) (f s₀) Q) : Triple F P (get >>= f) Q := by
  intro s hs
  rw [exec_bind]
  exact h s s ⟨rfl, hs⟩

theorem Triple.modify {g : σ → σ} {Q : PUnit → σ → Prop} (h : ∀ s, P s → Q ⟨⟩ (g s)) :
    Triple F P (modify g : Code σ PUnit) Q := h

theorem Triple.ite {c : Prop} [Decidable c] {m₁ m₂ : Code σ α} (h₁ : c → Triple F P m₁ Q)
    (h₂ : ¬ c → Triple F P m₂ Q) : Triple F P (if c then m₁ else m₂) Q := by
  split_ifs with hc
  · exact h₁ hc
  · exact h₂ hc

/-- **Invariant rule**: what every round keeps, the loop keeps. -/
theorem Triple.forM {f : α → Code σ PUnit} {l : List α}
    (h : ∀ a ∈ l, Triple F P (f a) fun _ => P) : Triple F P (l.forM f) fun _ => P := by
  induction l with
  | nil => exact Triple.ret fun _ hs => hs
  | cons a l ih =>
    exact (h a List.mem_cons_self).bind fun _ => ih fun b hb => h b (List.mem_cons_of_mem _ hb)

theorem Triple.foldlM {f : β → α → Code σ β} {l : List α} {b : β}
    (h : ∀ b, ∀ a ∈ l, Triple F P (f b a) fun _ => P) : Triple F P (l.foldlM f b) fun _ => P := by
  induction l generalizing b with
  | nil => exact Triple.ret fun _ hs => hs
  | cons a l ih =>
    rw [List.foldlM_cons]
    exact (h b a List.mem_cons_self).bind fun b => ih fun b c hc => h b c (List.mem_cons_of_mem _ hc)

/-- **A loop returns what it returns without the state**, if every round does. -/
theorem Triple.foldlM_value {f : β → α → Code σ β} {g : β → α → Option β} {l : List α} {b : β}
    (h : ∀ b a, Triple F P (f b a) fun b' s => g b a = some b' ∧ P s) :
    Triple F P (l.foldlM f b) fun b' s => l.foldlM g b = some b' ∧ P s := by
  induction l generalizing b with
  | nil => exact Triple.ret fun _ hs => ⟨rfl, hs⟩
  | cons a l ih =>
    rw [List.foldlM_cons, List.foldlM_cons]
    refine (h b a).bind fun b' => Triple.assume fun e => ?_
    rw [e]
    exact ih

/-- **Counted loops with a result**: `I i b` before round `i`, with `b` so far. -/
theorem Triple.foldlM_range {f : β → ℕ → Code σ β} {I : ℕ → β → σ → Prop} {n : ℕ} {b : β}
    (h : ∀ i < n, ∀ b, Triple F (I i b) (f b i) (I (i + 1))) :
    Triple F (I 0 b) ((List.range n).foldlM f b) (I n) := by
  induction n with
  | zero => exact Triple.ret fun _ hs => hs
  | succ n ih =>
    rw [List.range_succ, List.foldlM_append]
    refine (ih fun i hi => h i (by omega)).bind fun b => ?_
    rw [List.foldlM_cons]
    exact (h n (by omega) b).bind fun b => Triple.ret fun _ hs => hs

theorem Triple.forM_range {f : ℕ → Code σ PUnit} {I : ℕ → σ → Prop} {n : ℕ}
    (h : ∀ i < n, Triple F (I i) (f i) fun _ => I (i + 1)) :
    Triple F (I 0) ((List.range n).forM f) fun _ => I n := by
  induction n with
  | zero => exact Triple.ret fun _ hs => hs
  | succ n ih =>
    rw [List.range_succ, List.forM_eq_forM, List.forM_append]
    exact (ih fun i hi => h i (by omega)).bind fun _ => (h n (by omega)).bind fun _ => Triple.ret fun _ hs => hs

theorem Triple.exists_exec {s : σ} (h : Triple (fun _ => False) P m Q) (hs : P s) :
    ∃ a s', exec m s = (some a, s') ∧ Q a s' := by
  have h := h s hs
  generalize exec m s = r at h ⊢
  obtain ⟨_ | a, s'⟩ := r
  · exact h.elim
  · exact ⟨a, s', rfl, h⟩

end Prog
