import EitanOS.Lib.Links

/-!
# Rings threaded through a `next` map

* `Ring next p l`: from `p`, following `next` visits the nodes of `l`, each once, and comes back.
* `Ring.step`, `Ring.rebase`, **`Ring.rebase_append`**: a ring seen from another of its nodes.
* **`Ring.insert`**, **`Ring.remove`**, **`Ring.unlink`**: linking a new node after `p`, unlinking the
  one there, and unlinking `p`.
* **`Ring.find_some`**, **`Ring.find_none`**: the `do … while` scan of a ring for a node that
  passes a test.
-/

namespace Links

variable {α : Type*} {next next' : α → α} {p q x a : α} {l : List α}

/-- A cycle through `p` and then the nodes of `l`. -/
structure Ring (next : α → α) (p : α) (l : List α) : Prop where
  seg : Seg next (next p) l p
  nodup : (p :: l).Nodup

theorem ring_nil (h : next p = p) : Ring next p [] := ⟨h, List.nodup_singleton p⟩

/-- **The same ring from any of its nodes**, with the two parts of the list exchanged. -/
theorem Ring.rebase_append {k k' : List α} (h : Ring next p (k ++ q :: k')) :
    Ring next q (k' ++ p :: k) := by
  obtain ⟨hs, hd⟩ := h
  obtain ⟨r, h₁, rfl, h₂⟩ := seg_append.mp hs
  have hp : (r :: (k' ++ p :: k)).Perm (p :: (k ++ r :: k')) :=
    (List.perm_append_comm : ((r :: k') ++ (p :: k)).Perm ((p :: k) ++ (r :: k')))
  exact ⟨seg_append.mpr ⟨p, h₂, rfl, h₁⟩, hp.nodup_iff.mpr hd⟩

theorem Ring.rebase (h : Ring next p l) (hq : q ∈ p :: l) :
    ∃ l', Ring next q l' ∧ (q :: l').Perm (p :: l) := by
  rcases List.mem_cons.mp hq with rfl | hq
  · exact ⟨l, h, List.Perm.refl _⟩
  obtain ⟨k, k', rfl⟩ := List.append_of_mem hq
  exact ⟨k' ++ p :: k, h.rebase_append,
    (List.perm_append_comm : ((q :: k') ++ (p :: k)).Perm ((p :: k) ++ (q :: k')))⟩

theorem Ring.step_cons (h : Ring next p (q :: l)) : Ring next q (l ++ [p]) :=
  h.rebase_append (k := [])

theorem Ring.step (h : Ring next p l) :
    ∃ l', Ring next (next p) l' ∧ (next p :: l').Perm (p :: l) := by
  cases l with
  | nil =>
    have hp : next p = p := seg_nil.mp h.seg
    rw [hp]
    exact ⟨[], h, List.Perm.refl _⟩
  | cons q l =>
    rw [show next p = q from h.seg.1]
    exact ⟨l ++ [p], h.step_cons, List.perm_append_singleton p (q :: l)⟩

theorem Ring.next_mem (h : Ring next p l) (hq : q ∈ p :: l) : next q ∈ p :: l := by
  obtain ⟨l₁, h₁, hp₁⟩ := h.rebase hq
  obtain ⟨l₂, -, hp₂⟩ := h₁.step
  exact hp₁.mem_iff.mp (hp₂.mem_iff.mp List.mem_cons_self)

theorem Ring.exists_prev (h : Ring next p l) (hq : q ∈ p :: l) : ∃ a ∈ p :: l, next a = q := by
  obtain ⟨k, hr, hp⟩ := h.rebase hq
  rcases List.eq_nil_or_concat k with rfl | ⟨k, a, rfl⟩
  · exact ⟨q, hq, seg_nil.mp hr.seg⟩
  · rw [List.concat_eq_append] at hr hp
    exact ⟨a, hp.mem_iff.mp (by simp), (seg_concat.mp hr.seg).2⟩

/-- **Linking a new node** after `p`. -/
theorem Ring.insert (h : Ring next p l) (hx : x ∉ p :: l) (h₁ : next' p = x)
    (h₂ : next' x = next p) (e : ∀ a ∈ l, next' a = next a) : Ring next' p (x :: l) := by
  refine ⟨?_, ?_⟩
  · rw [h₁]
    refine ⟨rfl, ?_⟩
    rw [h₂]
    exact h.seg.congr e
  · exact (List.Perm.swap x p l).nodup_iff.mpr (List.nodup_cons.mpr ⟨hx, h.nodup⟩)

/-- **Unlinking the node** after `p`. -/
theorem Ring.remove (h : Ring next p (x :: l)) (h₁ : next' p = next x)
    (e : ∀ a ∈ l, next' a = next a) : Ring next' p l := by
  obtain ⟨⟨-, hs⟩, hd⟩ := h
  refine ⟨?_, hd.sublist (List.Sublist.cons_cons p (List.sublist_cons_self x l))⟩
  rw [h₁]
  exact hs.congr e

theorem Ring.next_eq (h : Ring next p (x :: l)) : next p = x := h.seg.1

theorem Seg.eq_of_notMem {l' : List α} (h : Seg next a l p) (h' : Seg next a l' p) (hp : p ∉ l)
    (hp' : p ∉ l') : l = l' := by
  induction l generalizing a l' with
  | nil =>
    obtain rfl := seg_nil.mp h
    cases l' with
    | nil => rfl
    | cons b l' => exact absurd (h'.1 ▸ List.mem_cons_self) hp'
  | cons b l ih =>
    obtain ⟨rfl, h⟩ := h
    cases l' with
    | nil => exact absurd (seg_nil.mp h' ▸ List.mem_cons_self) hp
    | cons c l' =>
      obtain ⟨rfl, h'⟩ := h'
      rw [ih h h' (fun hm => hp (List.mem_cons_of_mem _ hm)) fun hm => hp' (List.mem_cons_of_mem _ hm)]

theorem Ring.unique {l' : List α} (h : Ring next p l) (h' : Ring next p l') : l = l' :=
  h.seg.eq_of_notMem h'.seg (List.nodup_cons.mp h.nodup).1 (List.nodup_cons.mp h'.nodup).1

theorem Ring.eq_concat (h : Ring next p l) (ha : a ∈ l) (e : next a = p) : ∃ k, l = k ++ [a] := by
  obtain ⟨k, k', rfl⟩ := List.append_of_mem ha
  cases k' with
  | nil => exact ⟨k, rfl⟩
  | cons b k' =>
    have hb : next a = b := h.rebase_append.next_eq
    exact absurd h.nodup (by simp [← e, hb])

/-- **Unlinking `p` itself**: the ring from the node after it. -/
theorem Ring.unlink (h : Ring next p (x :: l)) (ha : a ∈ x :: l) (e : next a = p)
    (h₁ : next' a = next p) (h₂ : ∀ b, b ≠ a → next' b = next b) : Ring next' x l := by
  obtain ⟨k, hk⟩ := h.eq_concat ha e
  rw [hk] at h
  have hr : Ring next a (p :: k) := h.rebase_append
  have hr' : Ring next' a k := hr.remove h₁ fun b hb => h₂ b fun hba =>
    (List.nodup_cons.mp hr.nodup).1 (hba ▸ List.mem_cons_of_mem p hb)
  cases k with
  | nil =>
    obtain ⟨rfl, rfl⟩ := List.cons.inj hk
    exact hr'
  | cons y k =>
    obtain ⟨rfl, rfl⟩ := List.cons.inj hk
    exact hr'.step_cons

/-! ## Scanning a ring -/

/-- `do { if (test(p)) break; p = p->next; } while (p != first);`: the final value of `p`. -/
def scan (next : α → α) (test : α → Bool) [DecidableEq α] (first : α) : ℕ → α → Option α
  | 0, _ => none
  | fuel + 1, p =>
    if test p then some p
    else if next p = first then some (next p)
    else scan next test first fuel (next p)

/-- The scan from `first`, with the test made once more at the end. -/
def find (next : α → α) (test : α → Bool) [DecidableEq α] (first : α) (fuel : ℕ) :
    Option (Option α) :=
  (scan next test first fuel first).map fun p => if test p then some p else none

variable [DecidableEq α] {test : α → Bool} {fuel : ℕ}

theorem scan_spec (hs : Seg next (next a) l p) (hp : p ∉ l)
    (e : scan next test p fuel a = some q) :
    (q ∈ a :: l ∧ test q = true) ∨ (q = p ∧ ∀ b ∈ a :: l, test b = false) := by
  induction fuel generalizing a l with
  | zero => exact absurd e (by simp [scan])
  | succ fuel ih =>
    rw [scan] at e
    split_ifs at e with h₁ h₂
    · obtain rfl := Option.some.inj e
      exact Or.inl ⟨List.mem_cons_self, h₁⟩
    · obtain rfl := Option.some.inj e
      cases l with
      | nil => exact Or.inr ⟨h₂, by simpa using h₁⟩
      | cons b l => exact absurd List.mem_cons_self (hs.1 ▸ h₂ ▸ hp)
    · cases l with
      | nil => exact absurd hs h₂
      | cons b l =>
        obtain ⟨rfl, hs⟩ := hs
        rcases ih hs (fun h => hp (List.mem_cons_of_mem _ h)) e with ⟨hq, ht⟩ | ⟨hq, ht⟩
        · exact Or.inl ⟨List.mem_cons_of_mem _ hq, ht⟩
        · exact Or.inr ⟨hq, List.forall_mem_cons.mpr ⟨by simpa using h₁, ht⟩⟩

theorem scan_isSome (hs : Seg next (next a) l p) (hl : l.length < fuel) :
    (scan next test p fuel a).isSome = true := by
  induction fuel generalizing a l with
  | zero => exact absurd hl (Nat.not_lt_zero _)
  | succ fuel ih =>
    rw [scan]
    split_ifs with h₁ h₂
    · rfl
    · rfl
    · cases l with
      | nil => exact absurd hs h₂
      | cons b l =>
        obtain ⟨rfl, hs⟩ := hs
        exact ih hs (by simpa using hl)

theorem find_test (e : find next test p fuel = some (some q)) : test q = true := by
  obtain ⟨r, -, e⟩ := Option.map_eq_some_iff.mp e
  split_ifs at e with ht
  obtain rfl := Option.some.inj e
  exact ht

/-- **What the scan finds** is on the ring and passes the test. -/
theorem Ring.find_some (h : Ring next p l) (e : find next test p fuel = some (some q)) :
    q ∈ p :: l ∧ test q = true := by
  obtain ⟨r, hr, e⟩ := Option.map_eq_some_iff.mp e
  split_ifs at e with ht
  obtain rfl := Option.some.inj e
  rcases scan_spec h.seg (List.nodup_cons.mp h.nodup).1 hr with hq | ⟨rfl, hq⟩
  · exact hq
  · exact absurd ht (by simp [hq r List.mem_cons_self])

/-- **When the scan finds nothing**, no node of the ring passes the test. -/
theorem Ring.find_none (h : Ring next p l) (e : find next test p fuel = some none) :
    ∀ a ∈ p :: l, test a = false := by
  obtain ⟨r, hr, e⟩ := Option.map_eq_some_iff.mp e
  split_ifs at e with ht
  rcases scan_spec h.seg (List.nodup_cons.mp h.nodup).1 hr with hq | ⟨rfl, hq⟩
  · exact absurd hq.2 ht
  · exact hq

theorem Ring.find_isSome (h : Ring next p l) (hl : l.length < fuel) :
    (find next test p fuel).isSome = true := by
  rw [find, Option.isSome_map]
  exact scan_isSome h.seg hl

end Links
