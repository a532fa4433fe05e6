import EitanOS.Disk.Files

/-!
# Paths and their components

A valid path is either `/` or its components, each behind a slash (`validPath_components`).

* `strSplit_join`, `strSplit_join_slash`: `str_split` gives the components back, with or without a
  slash at the end.
* **`validPath_split`**: what `split_path` gives for a path other than `/`, and what `str_split`
  makes of its first part. `parentPath`: that part without its last slash, which is a valid path.
-/

namespace EitanOS

/-- What can stand between two slashes. -/
structure Component (c : List UInt8) : Prop where
  ne_nil : c ≠ []
  slash_notMem : slash ∉ c
  zero_notMem : (0 : UInt8) ∉ c
  length_le : c.length ≤ 60

/-- Each component behind a slash. -/
def joinPath (cs : List (List UInt8)) : List UInt8 := cs.flatMap fun c => slash :: c

variable {c w s : List UInt8} {cs : List (List UInt8)}

/-! ## `str_split` after joining -/

theorem strSplitLoop_append (hc : slash ∉ c) :
    strSplitLoop slash w (c ++ s) = strSplitLoop slash (c.reverse ++ w) s := by
  induction c generalizing w with
  | nil => rfl
  | cons a c ih =>
    rw [List.mem_cons, not_or] at hc
    rw [List.cons_append, strSplitLoop, if_neg (Ne.symm hc.1), ih hc.2, List.reverse_cons,
      List.append_assoc, List.singleton_append]

theorem strSplitLoop_component (hc : Component c) (hs : s = [] ∨ s.head? = some slash) :
    strSplitLoop slash [] (c ++ s) = c :: strSplitLoop slash [] s := by
  have hr : c.reverse ≠ [] := by simpa using hc.ne_nil
  rw [strSplitLoop_append hc.slash_notMem, List.append_nil]
  cases s with
  | nil => simp [strSplitLoop, hc.ne_nil]
  | cons a s =>
    have ha : a = slash := by simpa using hs
    rw [strSplitLoop, strSplitLoop, if_pos ha, if_pos ha, if_neg hr, if_pos rfl,
      List.reverse_reverse]

theorem joinPath_cons : joinPath (c :: cs) = slash :: (c ++ joinPath cs) := by
  simp [joinPath]

theorem joinPath_head (cs : List (List UInt8)) :
    joinPath cs ++ s = s ∨ (joinPath cs ++ s).head? = some slash := by
  cases cs with
  | nil => exact .inl rfl
  | cons c cs => exact .inr (by rw [joinPath_cons]; rfl)

theorem strSplit_join_append (h : ∀ c ∈ cs, Component c) (hs : s = [] ∨ s.head? = some slash) :
    strSplit (joinPath cs ++ s) slash = cs ++ strSplit s slash := by
  induction cs with
  | nil => rfl
  | cons c cs ih =>
    have hn : joinPath cs ++ s = [] ∨ (joinPath cs ++ s).head? = some slash := by
      rcases joinPath_head (s := s) cs with e | e
      · rwa [e]
      · exact .inr e
    rw [joinPath_cons, strSplit, List.cons_append, strSplitLoop, if_pos rfl, if_pos rfl,
      List.append_assoc, strSplitLoop_component (h c List.mem_cons_self) hn, List.cons_append]
    exact congrArg _ (ih fun c' hc' => h c' (List.mem_cons_of_mem _ hc'))

/-- **`str_split` takes a joined path apart.** -/
theorem strSplit_join (h : ∀ c ∈ cs, Component c) : strSplit (joinPath cs) slash = cs := by
  have e := strSplit_join_append (s := []) h (.inl rfl)
  rw [List.append_nil] at e
  rw [e]
  exact List.append_nil cs

theorem strSplit_join_slash (h : ∀ c ∈ cs, Component c) :
    strSplit (joinPath cs ++ [slash]) slash = cs := by
  rw [strSplit_join_append h (.inr rfl)]
  exact List.append_nil cs

/-! ## Valid paths -/

theorem componentsOk_split (h : componentsOk w.length s = true) (ht : slash ∉ w)
    (h₀ : (0 : UInt8) ∉ w) (hl : w.length ≤ 60) :
    (∀ c ∈ strSplitLoop slash w s, Component c) ∧
      joinPath (strSplitLoop slash w s) = slash :: (w.reverse ++ s) := by
  induction s generalizing w with
  | nil =>
    have hn : w ≠ [] := by simpa [componentsOk] using h
    rw [strSplitLoop, if_neg hn]
    refine ⟨fun c hc => ?_, ?_⟩
    · rw [List.mem_singleton] at hc
      subst hc
      exact ⟨by simpa using hn, by simpa using ht, by simpa using h₀, by simpa using hl⟩
    · simp [joinPath]
  | cons a s ih =>
    rw [componentsOk] at h
    rw [strSplitLoop]
    by_cases ha : a = slash
    · rw [if_pos ha] at h ⊢
      obtain ⟨hn, h⟩ : w ≠ [] ∧ componentsOk 0 s = true := by simpa using h
      obtain ⟨h₁, h₂⟩ := ih (w := []) h List.not_mem_nil List.not_mem_nil (Nat.zero_le _)
      rw [if_neg hn]
      refine ⟨fun c hc => ?_, ?_⟩
      · rcases List.mem_cons.1 hc with rfl | hc
        · exact ⟨by simpa using hn, by simpa using ht, by simpa using h₀, by simpa using hl⟩
        · exact h₁ c hc
      · rw [joinPath_cons, h₂, ha]
        rfl
    · rw [if_neg ha] at h ⊢
      split_ifs at h with hz
      rw [Bool.and_eq_true, decide_eq_true_eq] at h
      have h' := ih (w := a :: w) h.2 (by simp [ht, Ne.symm ha]) (by simp [h₀, Ne.symm hz]) h.1
      simpa using h'

variable {path : List UInt8}

theorem validPath_components (h : isValidPath path = true) :
    (∀ c ∈ strSplit path slash, Component c) ∧
      (path = [slash] ∨ path = joinPath (strSplit path slash) ∧ strSplit path slash ≠ []) := by
  unfold isValidPath at h
  cases path with
  | nil => simp at h
  | cons a s =>
    simp only [List.head?_cons, Option.some.injEq, List.tail_cons, Bool.and_eq_true,
      decide_eq_true_eq, Bool.or_eq_true, List.length_cons, Nat.add_eq_right,
      List.length_eq_zero_iff] at h
    obtain ⟨⟨rfl, -⟩, hs⟩ := h
    by_cases hn : s = []
    · subst hn
      exact ⟨fun c hc => absurd hc (by simp [strSplit, strSplitLoop]), .inl rfl⟩
    · obtain ⟨h₁, h₂⟩ := componentsOk_split (w := []) (hs.resolve_left hn) List.not_mem_nil
        List.not_mem_nil (Nat.zero_le _)
      have e : strSplit (slash :: s) slash = strSplitLoop slash [] s := by
        rw [strSplit, strSplitLoop, if_pos rfl, if_pos rfl]
      rw [e]
      refine ⟨h₁, .inr ⟨h₂.symm, fun h₃ => ?_⟩⟩
      rw [h₃] at h₂
      cases h₂

theorem strSplit_slash : strSplit [slash] slash = [] := rfl

theorem componentsOk_append {n : ℕ} (hc : slash ∉ c) (h₀ : (0 : UInt8) ∉ c) (hl : n + c.length ≤ 60) :
    componentsOk n (c ++ s) = componentsOk (n + c.length) s := by
  induction c generalizing n with
  | nil => rfl
  | cons a c ih =>
    rw [List.mem_cons, not_or] at hc h₀
    rw [List.length_cons] at hl ⊢
    rw [List.cons_append, componentsOk, if_neg (Ne.symm hc.1), if_neg (Ne.symm h₀.1),
      decide_eq_true (by omega : n + 1 ≤ 60), Bool.true_and, ih hc.2 h₀.2 (by omega)]
    congr 1
    omega

theorem componentsOk_join (h : ∀ c ∈ cs, Component c) (hn : cs ≠ []) :
    componentsOk 0 (joinPath cs).tail = true := by
  induction cs with
  | nil => exact absurd rfl hn
  | cons c cs ih =>
    have hc := h c List.mem_cons_self
    have hpos := List.length_pos_iff.2 hc.ne_nil
    have hle := hc.length_le
    rw [joinPath_cons, List.tail_cons, componentsOk_append hc.slash_notMem hc.zero_notMem (by omega)]
    cases cs with
    | nil =>
      rw [joinPath, List.flatMap_nil, componentsOk]
      exact decide_eq_true (by omega)
    | cons c' cs =>
      have hrest := ih (fun c hc => h c (List.mem_cons_of_mem _ hc)) (List.cons_ne_nil _ _)
      rw [joinPath_cons, List.tail_cons] at hrest
      rw [joinPath_cons, componentsOk, if_pos rfl, hrest, Bool.and_true]
      exact decide_eq_true (by omega)

/-- **A valid path is given by its components.** -/
theorem validPath_ext {q : List UInt8} (h : isValidPath path = true) (hq : isValidPath q = true)
    (e : strSplit q slash = strSplit path slash) : q = path := by
  rcases (validPath_components h).2 with h' | ⟨h', hn⟩
  · rcases (validPath_components hq).2 with hq' | ⟨hq', hn'⟩
    · rw [h', hq']
    · rw [e, h', strSplit_slash] at hn'
      exact absurd rfl hn'
  · rcases (validPath_components hq).2 with hq' | ⟨hq', -⟩
    · rw [← e, hq', strSplit_slash] at hn
      exact absurd rfl hn
    · rw [hq', e, ← h']

theorem validPath_head (h : isValidPath path = true) : path.head? = some slash := by
  unfold isValidPath at h
  simp only [Bool.and_eq_true, decide_eq_true_eq] at h
  exact h.1.1

theorem splitPath_append (hs : slash ∉ s) : splitPath (w ++ slash :: s) = (w ++ [slash], s) := by
  have hlast : ∀ a ∈ s.reverse, decide (a ≠ slash) = true := by
    intro a ha
    rw [List.mem_reverse] at ha
    exact decide_eq_true fun e => hs (e ▸ ha)
  have hr : (w ++ slash :: s).reverse = s.reverse ++ slash :: w.reverse := by
    simp
  rw [splitPath, hr, List.dropWhile_append_of_pos hlast, List.takeWhile_append_of_pos hlast]
  simp

theorem splitPath_join {name : List UInt8} (hname : Component name) :
    splitPath (joinPath cs ++ slash :: name) = (joinPath cs ++ [slash], name) :=
  splitPath_append hname.slash_notMem

theorem validPath_join (h : isValidPath path = true) (hne : path ≠ [slash]) :
    ∃ cs name, strSplit path slash = cs ++ [name] ∧ path = joinPath cs ++ slash :: name ∧
      Component name ∧ ∀ c ∈ cs, Component c := by
  obtain ⟨hc, hj⟩ := validPath_components h
  obtain ⟨hj, hn⟩ := hj.resolve_left hne
  obtain ⟨cs, name, e⟩ : ∃ cs name, strSplit path slash = cs ++ [name] :=
    ⟨_, _, (List.dropLast_append_getLast hn).symm⟩
  rw [e] at hj hc
  refine ⟨cs, name, e, ?_, hc name (by simp), fun c hm => hc c (by simp [hm])⟩
  rw [hj]
  simp [joinPath]

/-- **What `split_path` makes of a path below the root.** -/
theorem validPath_split (h : isValidPath path = true) (hne : path ≠ [slash]) :
    ∃ cs name, strSplit path slash = cs ++ [name] ∧
      (splitPath path).1.head? = some slash ∧ strSplit (splitPath path).1 slash = cs ∧
      (splitPath path).2 = name ∧ Component name := by
  obtain ⟨cs, name, e, rfl, hname, hc⟩ := validPath_join h hne
  rw [splitPath_join hname]
  refine ⟨cs, name, e, ?_, strSplit_join_slash hc, rfl, hname⟩
  rcases joinPath_head (s := [slash]) cs with e | e
  · rw [e]
    rfl
  · exact e

/-- **The components at the front of a path** are those of a path. -/
theorem validPath_prefix (h : isValidPath path = true) (hcs : cs <+: strSplit path slash) :
    ∃ p, isValidPath p = true ∧ strSplit p slash = cs := by
  obtain ⟨hc, hj⟩ := validPath_components h
  have hcomp : ∀ c ∈ cs, Component c := fun c hm => hc c (hcs.subset hm)
  by_cases hn : cs = []
  · subst hn
    exact ⟨[slash], by decide, rfl⟩
  · refine ⟨joinPath cs, ?_, strSplit_join hcomp⟩
    obtain ⟨rest, e⟩ := hcs
    have hlen : (joinPath cs).length ≤ 1001 := by
      rcases hj with rfl | ⟨hj, -⟩
      · rw [strSplit_slash, List.append_eq_nil_iff] at e
        exact absurd e.1 hn
      · simp only [isValidPath, Bool.and_eq_true, decide_eq_true_eq] at h
        rw [hj, ← e, joinPath, List.flatMap_append, List.length_append] at h
        rw [joinPath]
        omega
    have hhead : (joinPath cs).head? = some slash := by
      obtain ⟨c, cs, rfl⟩ := List.exists_cons_of_ne_nil hn
      rw [joinPath_cons]
      rfl
    rw [isValidPath, hhead, decide_eq_true hlen, componentsOk_join hcomp hn, Bool.or_true]
    rfl

/-- The path of the directory a path is in, without a slash at the end. -/
def parentPath (path : List UInt8) : List UInt8 :=
  if (splitPath path).1 = [slash] then [slash] else (splitPath path).1.dropLast

/-- **It is valid, and has the components of what `split_path` gives.** -/
theorem validPath_parentPath (h : isValidPath path = true) (hne : path ≠ [slash]) :
    isValidPath (parentPath path) = true ∧
      strSplit (parentPath path) slash = strSplit (splitPath path).1 slash := by
  obtain ⟨cs, name, -, rfl, hname, hc⟩ := validPath_join h hne
  have hlen : (joinPath cs).length ≤ 1001 := by
    simp only [isValidPath, Bool.and_eq_true, decide_eq_true_eq, List.length_append] at h
    omega
  rw [parentPath, splitPath_join hname]
  dsimp only
  rw [strSplit_join_slash hc]
  cases cs with
  | nil =>
    have hnil : joinPath [] ++ [slash] = [slash] := rfl
    rw [if_pos hnil]
    exact ⟨by decide, rfl⟩
  | cons c cs =>
    have hsplit := strSplit_join hc
    have hok := componentsOk_join hc (List.cons_ne_nil _ _)
    rw [joinPath_cons] at hlen hsplit hok ⊢
    rw [if_neg (by simp), List.dropLast_concat]
    refine ⟨?_, hsplit⟩
    rw [isValidPath, hok, decide_eq_true hlen, Bool.or_true]
    rfl

end EitanOS
