import Mathlib.Data.List.Induction
import Mathlib.Data.List.Nodup
import Mathlib.Data.List.Perm.Subperm
import Mathlib.Data.Set.BooleanAlgebra
import Mathlib.Data.Set.Disjoint
import Mathlib.Data.Set.Insert
import Mathlib.Order.CompletePartialOrder

/-!
# Trees of names

A tree of directories as tables: every folder lists names, each with the node it stands for.

* `Tree.walk` follows a list of names; a node on the way must be a directory, the last one may be
  any node.
* `Tree.Path` is the same as a relation, and `Ok.walk_root` says so for a tree that is `Tree.Ok`.
* `Path.unique`: where no node has two names and the root has none, a node has one path.
* `Path.length_lt`: no path is longer than there are nodes. `Tree.subtree`: the nodes whose path starts
  with given names; **`Ok.cover_entries`**: the subtrees of the entries of a folder make up its own.
* `Tree.Prunes`: a node keeps its path but not what is below it.
* `Tree.Detaches`: the entry for a node is gone. **`Detaches.path`**: so are the paths of what is below
  it, and no others.
* `Tree.Attaches`: one folder has one more name, for a node that had none. **`Attaches.path`** says
  what has a path then.
* `Tree.AddsLeaf`: the same for a node that is no folder.
-/

namespace Names

/-- Folders are the root and the directories. -/
structure Tree (Name Node : Type*) where
  root : Node
  isDir : Node → Bool
  entries : Node → List (Name × Node)

variable {Name Node : Type*}

namespace Tree

/-- The nodes whose entries count. -/
def Folder (T : Tree Name Node) (q : Node) : Prop := q = T.root ∨ T.isDir q

section Walk

variable [DecidableEq Name]

/-- Follow the names from a node, each time along the first entry that fits. -/
def walk (T : Tree Name Node) : Node → List Name → Option Node
  | q, [] => some q
  | q, c :: cs =>
    match (T.entries q).find? fun x => x.1 = c ∧ (T.isDir x.2 ∨ cs = []) with
    | none => none
    | some x => T.walk x.2 cs

end Walk

/-- A node and the names that lead to it from the root. -/
inductive Path (T : Tree Name Node) : List Name → Node → Prop
  | root : Path T [] T.root
  | snoc {cs q c p} : Path T cs q → T.Folder q → (c, p) ∈ T.entries q → Path T (cs ++ [c]) p

/-- The names in a folder differ, no node is named twice and the root is not named. -/
structure Ok (T : Tree Name Node) : Prop where
  names : ∀ q, T.Folder q → ((T.entries q).map Prod.fst).Nodup
  nodes : ∀ q, T.Folder q → ((T.entries q).map Prod.snd).Nodup
  parent : ∀ q q' x x', T.Folder q → T.Folder q' → x ∈ T.entries q → x' ∈ T.entries q' →
    x.2 = x'.2 → q = q'
  root : ∀ q x, T.Folder q → x ∈ T.entries q → x.2 ≠ T.root

variable {T T' : Tree Name Node}

theorem Ok.entry_eq_of_name (h : T.Ok) {q : Node} (hq : T.Folder q) {x y : Name × Node}
    (hx : x ∈ T.entries q) (hy : y ∈ T.entries q) (e : x.1 = y.1) : x = y :=
  List.inj_on_of_nodup_map (h.names q hq) hx hy e

theorem Ok.entry_eq_of_node (h : T.Ok) {q : Node} (hq : T.Folder q) {x y : Name × Node}
    (hx : x ∈ T.entries q) (hy : y ∈ T.entries q) (e : x.2 = y.2) : x = y :=
  List.inj_on_of_nodup_map (h.nodes q hq) hx hy e

/-- **A node has one path.** -/
theorem Path.unique (h : T.Ok) {cs cs' : List Name} {p : Node} (h₁ : T.Path cs p)
    (h₂ : T.Path cs' p) : cs = cs' := by
  induction h₁ generalizing cs' with
  | root =>
    generalize hr : T.root = r at h₂
    cases h₂ with
    | root => rfl
    | snoc _ hq hm => exact absurd hr.symm (h.root _ _ hq hm)
  | snoc h₁ hq hm ih =>
    cases h₂ with
    | root => exact absurd rfl (h.root _ _ hq hm)
    | snoc h₂ hq' hm' =>
      cases h.parent _ _ _ _ hq hq' hm hm' rfl
      cases h.entry_eq_of_node hq hm hm' rfl
      rw [ih h₂]

theorem Ok.mono (h : T.Ok) (hr : T'.root = T.root) (hf : ∀ q, T'.Folder q → T.Folder q)
    (he : ∀ q, T'.Folder q → (T'.entries q).Sublist (T.entries q)) : T'.Ok where
  names q hq := (h.names q (hf q hq)).sublist ((he q hq).map _)
  nodes q hq := (h.nodes q (hf q hq)).sublist ((he q hq).map _)
  parent q₁ q₂ x₁ x₂ hq₁ hq₂ hx₁ hx₂ e :=
    h.parent q₁ q₂ x₁ x₂ (hf q₁ hq₁) (hf q₂ hq₂) ((he q₁ hq₁).subset hx₁) ((he q₂ hq₂).subset hx₂) e
  root q x hq hx := hr ▸ h.root q x (hf q hq) ((he q hq).subset hx)

/-! Nodes without entries may be folders or not. -/

section Congr

variable (he : T'.entries = T.entries) (hf : ∀ q, T.entries q ≠ [] → (T'.Folder q ↔ T.Folder q))
  (hr : T'.root = T.root)

include he hf hr in
theorem path_congr {cs : List Name} {p : Node} : T'.Path cs p ↔ T.Path cs p := by
  constructor
  · intro hp
    induction hp with
    | root => exact hr ▸ .root
    | snoc _ hq hm ih =>
      rw [he] at hm
      exact .snoc ih ((hf _ (List.ne_nil_of_mem hm)).1 hq) hm
  · intro hp
    induction hp with
    | root => exact hr ▸ .root
    | snoc _ hq hm ih => exact .snoc ih ((hf _ (List.ne_nil_of_mem hm)).2 hq) (he ▸ hm)

include he hf hr in
theorem Ok.congr (h : T.Ok) : T'.Ok where
  names q hq := by
    rw [he]
    by_cases h₀ : T.entries q = []
    · simp [h₀]
    · exact h.names q ((hf q h₀).1 hq)
  nodes q hq := by
    rw [he]
    by_cases h₀ : T.entries q = []
    · simp [h₀]
    · exact h.nodes q ((hf q h₀).1 hq)
  parent q q' x x' hq hq' hx hx' e := by
    rw [he] at hx hx'
    exact h.parent q q' x x' ((hf q (List.ne_nil_of_mem hx)).1 hq)
      ((hf q' (List.ne_nil_of_mem hx')).1 hq') hx hx' e
  root q x hq hx := by
    rw [he] at hx
    exact hr ▸ h.root q x ((hf q (List.ne_nil_of_mem hx)).1 hq) hx

end Congr

theorem Path.ne_of_append (h : T.Ok) {cs : List Name} {c : Name} {p q : Node} (hq : T.Path cs q)
    (hp : T.Path (cs ++ [c]) p) : q ≠ p := by
  rintro rfl
  simpa using hq.unique h hp

theorem Path.last {cs : List Name} {c : Name} {p : Node} (h : T.Path (cs ++ [c]) p) :
    ∃ q, T.Path cs q ∧ T.Folder q ∧ (c, p) ∈ T.entries q := by
  generalize e : cs ++ [c] = l at h
  cases h with
  | root => simp at e
  | snoc h₀ hq hm =>
    obtain ⟨rfl, ec⟩ := List.append_inj' e rfl
    rw [List.singleton_inj] at ec
    subst ec
    exact ⟨_, h₀, hq, hm⟩

theorem Path.split {l m : List Name} {p : Node} (h : T.Path (l ++ m) p) :
    ∃ q, T.Path l q ∧ (m ≠ [] → T.Folder q) := by
  induction m using List.reverseRecOn generalizing p with
  | nil =>
    rw [List.append_nil] at h
    exact ⟨p, h, fun hn => absurd rfl hn⟩
  | append_singleton m c ih =>
    rw [← List.append_assoc] at h
    obtain ⟨q, h₀, hq, -⟩ := h.last
    by_cases hm : m = []
    · subst hm
      rw [List.append_nil] at h₀
      exact ⟨q, h₀, fun _ => hq⟩
    · obtain ⟨q', h₁, hq'⟩ := ih h₀
      exact ⟨q', h₁, fun _ => hq' hm⟩

theorem Path.node_unique (h : T.Ok) {cs : List Name} {p p' : Node} (h₁ : T.Path cs p)
    (h₂ : T.Path cs p') : p' = p := by
  induction h₁ generalizing p' with
  | root =>
    generalize e : ([] : List Name) = l at h₂
    cases h₂ with
    | root => rfl
    | snoc => simp at e
  | snoc _ hq hm ih =>
    obtain ⟨q', h₀, -, hm'⟩ := h₂.last
    cases ih h₀
    cases h.entry_eq_of_name hq hm hm' rfl
    rfl

section Walk

variable [DecidableEq Name]

theorem Ok.find_eq_some (h : T.Ok) {q : Node} (hq : T.Folder q) (c : Name) (cs : List Name)
    (x : Name × Node) :
    (T.entries q).find? (fun x => x.1 = c ∧ (T.isDir x.2 ∨ cs = [])) = some x ↔
      x ∈ T.entries q ∧ x.1 = c ∧ (T.isDir x.2 ∨ cs = []) := by
  constructor
  · intro e
    exact ⟨List.mem_of_find?_eq_some e, by simpa using List.find?_some e⟩
  · rintro ⟨hx, hc⟩
    cases e : (T.entries q).find? (fun x => x.1 = c ∧ (T.isDir x.2 ∨ cs = [])) with
    | none => exact absurd hc (by simpa using List.find?_eq_none.1 e x hx)
    | some y =>
      have hy := List.find?_some e
      rw [decide_eq_true_eq] at hy
      rw [h.entry_eq_of_name hq hx (List.mem_of_find?_eq_some e) (hc.1.trans hy.1.symm)]

/-- **Walking from a folder leads to the nodes whose paths go on from there.** -/
theorem Ok.walk_from (h : T.Ok) (cs : List Name) {cs₀ : List Name} {q p : Node}
    (h₀ : T.Path cs₀ q) (hq : cs ≠ [] → T.Folder q) :
    T.walk q cs = some p ↔ T.Path (cs₀ ++ cs) p := by
  induction cs generalizing cs₀ q with
  | nil =>
    rw [List.append_nil, walk, Option.some.injEq]
    constructor
    · rintro rfl
      exact h₀
    · intro hp
      exact hp.node_unique h h₀
  | cons c cs ih =>
    have hf : T.Folder q := hq (List.cons_ne_nil _ _)
    have step : T.walk q (c :: cs) = some p ↔
        ∃ x ∈ T.entries q, x.1 = c ∧ (T.isDir x.2 ∨ cs = []) ∧ T.walk x.2 cs = some p := by
      rw [walk]
      cases e : (T.entries q).find? (fun x => x.1 = c ∧ (T.isDir x.2 ∨ cs = [])) with
      | none =>
        simp only [List.find?_eq_none, decide_eq_true_eq] at e
        constructor
        · intro hn
          cases hn
        · rintro ⟨x, hx, hc, hd, -⟩
          exact absurd ⟨hc, hd⟩ (e x hx)
      | some x =>
        rw [h.find_eq_some hf] at e
        constructor
        · exact fun hw => ⟨x, e.1, e.2.1, e.2.2, hw⟩
        · rintro ⟨y, hy, hc, -, hw⟩
          rwa [h.entry_eq_of_name hf e.1 hy (e.2.1.trans hc.symm)]
    rw [step, List.append_cons]
    constructor
    · rintro ⟨⟨c, x⟩, hx, rfl, hd, hw⟩
      refine (ih (.snoc h₀ hf hx) fun hn => ?_).1 hw
      exact .inr (hd.resolve_right hn)
    · intro hp
      obtain ⟨x, hpx, hx⟩ := hp.split
      obtain ⟨q', h₁, -, hm⟩ := hpx.last
      cases h₁.node_unique h h₀
      refine ⟨(c, x), hm, rfl, ?_, (ih hpx hx).2 hp⟩
      by_cases hn : cs = []
      · exact .inr hn
      · exact .inl ((hx hn).resolve_left (h.root _ _ hf hm))

/-- **Walking from the root decides which node has a path.** -/
theorem Ok.walk_root (h : T.Ok) {cs : List Name} {p : Node} :
    T.walk T.root cs = some p ↔ T.Path cs p :=
  h.walk_from cs .root fun _ => .inl rfl

end Walk

/-! ## Below a node -/

/-- A node and the names that lead to it from node `p`. -/
inductive Below (T : Tree Name Node) (p : Node) : List Name → Node → Prop
  | here : Below T p [] p
  | snoc {cs q c x} : Below T p cs q → T.Folder q → (c, x) ∈ T.entries q → Below T p (cs ++ [c]) x

/-- **What has a path that goes on from that of `p` is below `p`.** -/
theorem Ok.path_append (h : T.Ok) {cs rest : List Name} {p x : Node} (hp : T.Path cs p) :
    T.Path (cs ++ rest) x ↔ T.Below p rest x := by
  constructor
  · intro hx
    induction rest using List.reverseRecOn generalizing x with
    | nil =>
      rw [List.append_nil] at hx
      rw [hp.node_unique h hx]
      exact .here
    | append_singleton rest c ih =>
      rw [← List.append_assoc] at hx
      obtain ⟨q, h₀, hq, hm⟩ := hx.last
      exact .snoc (ih h₀) hq hm
  · intro hx
    induction hx with
    | here => rwa [List.append_nil]
    | snoc _ hq hm ih =>
      rw [← List.append_assoc]
      exact .snoc ih hq hm

theorem Below.eq_of_leaf {p x : Node} {rest : List Name} (hb : T.Below p rest x)
    (hl : T.Folder p → T.entries p = []) : rest = [] ∧ x = p := by
  induction hb with
  | here => exact ⟨rfl, rfl⟩
  | snoc _ hq hm ih =>
    rw [ih.2] at hq hm
    rw [hl hq] at hm
    exact absurd hm List.not_mem_nil

theorem Below.exists_path (h : T.Ok) {p x : Node} {rest cs : List Name} (hb : T.Below p rest x)
    (hx : T.Path cs x) : ∃ cs', T.Path cs' p := by
  induction hb generalizing cs with
  | here => exact ⟨cs, hx⟩
  | snoc _ hq hm ih =>
    cases hx with
    | root => exact absurd rfl (h.root _ _ hq hm)
    | snoc hx hq' hm' =>
      cases h.parent _ _ _ _ hq' hq hm' hm rfl
      exact ih hx

theorem Path.exists_nodes (h : T.Ok) {cs : List Name} {p : Node} (hp : T.Path cs p) :
    ∃ l : List Node, l.Nodup ∧ l.length = cs.length + 1 ∧
      ∀ x ∈ l, ∃ cs', cs'.length ≤ cs.length ∧ T.Path cs' x := by
  induction hp with
  | root =>
    refine ⟨[T.root], List.nodup_singleton _, rfl, fun x hx => ⟨[], le_rfl, ?_⟩⟩
    rw [List.mem_singleton.1 hx]
    exact .root
  | @snoc cs q c p h₀ hq hm ih =>
    obtain ⟨l, hn, hl, hpath⟩ := ih
    refine ⟨p :: l, List.nodup_cons.2 ⟨fun hmem => ?_, hn⟩, by simp [hl], fun x hx => ?_⟩
    · obtain ⟨cs', hle, hp'⟩ := hpath p hmem
      rw [hp'.unique h (.snoc h₀ hq hm), List.length_append, List.length_singleton] at hle
      omega
    · rcases List.mem_cons.1 hx with rfl | hx
      · exact ⟨cs ++ [c], le_rfl, .snoc h₀ hq hm⟩
      · obtain ⟨cs', hle, hp'⟩ := hpath x hx
        exact ⟨cs', hle.trans (by simp), hp'⟩

/-- **Paths are no longer than there are nodes.** -/
theorem Path.length_lt (h : T.Ok) (nodes : List Node) (hn : ∀ cs x, T.Path cs x → x ∈ nodes)
    {cs : List Name} {p : Node} (hp : T.Path cs p) : cs.length < nodes.length := by
  obtain ⟨l, hnd, hl, hpath⟩ := hp.exists_nodes h
  have hsub : l ⊆ nodes := by
    intro x hx
    obtain ⟨cs', -, hx'⟩ := hpath x hx
    exact hn cs' x hx'
  have := (hnd.subperm hsub).length_le
  omega

/-! ## Subtrees -/

/-- The nodes whose path starts with `cs`. -/
def subtree (T : Tree Name Node) (cs : List Name) : Set Node := {x | ∃ rest, T.Path (cs ++ rest) x}

/-- The nodes below the entries of `l`, which are in the folder at `cs`. -/
def cover (T : Tree Name Node) (cs : List Name) (l : List (Name × Node)) : Set Node :=
  {x | ∃ y ∈ l, x ∈ T.subtree (cs ++ [y.1])}

section Subtree

variable {cs cs' : List Name} {p q x : Node}

theorem Path.mem_subtree (hp : T.Path cs p) : p ∈ T.subtree cs := ⟨[], by rwa [List.append_nil]⟩

theorem Path.mem_subtree_iff (h : T.Ok) (hx : T.Path cs' x) : x ∈ T.subtree cs ↔ cs <+: cs' := by
  constructor
  · rintro ⟨rest, hx'⟩
    rw [← hx'.unique h hx]
    exact List.prefix_append _ _
  · rintro ⟨rest, rfl⟩
    exact ⟨rest, hx⟩

theorem subtree_mono (c : Name) : T.subtree (cs ++ [c]) ⊆ T.subtree cs := by
  rintro x ⟨rest, hx⟩
  exact ⟨c :: rest, by rwa [List.append_cons]⟩

theorem cover_append (l l' : List (Name × Node)) :
    T.cover cs (l ++ l') = T.cover cs l ∪ T.cover cs l' := by
  ext x
  simp only [cover, List.mem_append, Set.mem_ofPred_eq, Set.mem_union, or_and_right, exists_or]

theorem cover_singleton (y : Name × Node) : T.cover cs [y] = T.subtree (cs ++ [y.1]) := by
  ext x
  simp [cover]

/-- **What is below a folder is below its entries.** -/
theorem Ok.cover_entries (h : T.Ok) (hp : T.Path cs p) (hf : T.Folder p) :
    T.cover cs (T.entries p) = T.subtree cs \ {p} := by
  ext x
  constructor
  · rintro ⟨y, hy, rest, hx⟩
    rw [← List.append_cons] at hx
    refine ⟨⟨y.1 :: rest, hx⟩, ?_⟩
    rintro rfl
    have e := hx.unique h hp
    simp at e
  · rintro ⟨⟨rest, hx⟩, hne⟩
    cases rest with
    | nil =>
      rw [List.append_nil] at hx
      exact absurd (hp.node_unique h hx) hne
    | cons c rest =>
      rw [List.append_cons] at hx
      obtain ⟨q, hq, -⟩ := hx.split
      obtain ⟨p', hp', -, hm⟩ := hq.last
      cases hp.node_unique h hp'
      exact ⟨(c, q), hm, rest, hx⟩

theorem Ok.subtree_of_not_folder (h : T.Ok) (hp : T.Path cs p) (hf : ¬ T.Folder p) :
    T.subtree cs = {p} := by
  ext x
  constructor
  · rintro ⟨rest, hx⟩
    rw [h.path_append hp] at hx
    exact (hx.eq_of_leaf fun hf' => absurd hf' hf).2
  · rintro rfl
    exact hp.mem_subtree

theorem Ok.disjoint_subtree (h : T.Ok) {c c' : Name} (hc : c ≠ c') :
    Disjoint (T.subtree (cs ++ [c])) (T.subtree (cs ++ [c'])) := by
  rw [Set.disjoint_left]
  rintro x ⟨rest, hx⟩ ⟨rest', hx'⟩
  have e := hx.unique h hx'
  rw [← List.append_cons, ← List.append_cons] at e
  exact hc (List.cons.inj (List.append_cancel_left e)).1

theorem Ok.disjoint_cover (h : T.Ok) {l : List (Name × Node)} {c : Name} (hl : ∀ y ∈ l, y.1 ≠ c) :
    Disjoint (T.cover cs l) (T.subtree (cs ++ [c])) := by
  rw [Set.disjoint_left]
  rintro x ⟨y, hy, hx⟩
  exact Set.disjoint_left.1 (h.disjoint_subtree (hl y hy)) hx

end Subtree

/-- `T'` is `T`, but the nodes of the subtree at `csp` are no folders. -/
structure Prunes (T T' : Tree Name Node) (csp : List Name) : Prop where
  root : T'.root = T.root
  folder : ∀ q, T'.Folder q → T.Folder q ∧ T'.entries q = T.entries q
  folder_iff : ∀ cs q, T.Path cs q → T.Folder q → (T'.Folder q ↔ ¬ csp <+: cs)

theorem Prunes.ok {csp : List Name} (h : Prunes T T' csp) (ok : T.Ok) : T'.Ok :=
  ok.mono h.root (fun q hq => (h.folder q hq).1) fun q hq => by rw [(h.folder q hq).2]

/-- **What is below the pruned node has no path any more; the node itself has.** -/
theorem Prunes.path {csp cs : List Name} {x : Node} (h : Prunes T T' csp) :
    T'.Path cs x ↔ T.Path cs x ∧ (csp <+: cs → cs = csp) := by
  constructor
  · intro hx
    induction hx with
    | root => exact ⟨h.root ▸ .root, fun e => (List.prefix_nil.1 e).symm⟩
    | @snoc cs q c x _ hq hm ih =>
      obtain ⟨hf, he⟩ := h.folder q hq
      have hpre := (h.folder_iff cs q ih.1 hf).1 hq
      refine ⟨.snoc ih.1 hf (he ▸ hm), fun e => ?_⟩
      rcases List.prefix_concat_iff.1 e with e | e
      · exact e.symm
      · exact absurd e hpre
  · rintro ⟨hx, hpre⟩
    induction hx with
    | root => exact h.root ▸ .root
    | @snoc cs q c x hq₀ hq hm ih =>
      have hpre' : ¬ csp <+: cs := by
        intro e
        have e' := hpre (e.trans (List.prefix_append _ _))
        have hlen := e.length_le
        rw [← e', List.length_append, List.length_singleton] at hlen
        omega
      have hq' := (h.folder_iff cs q hq₀ hq).2 hpre'
      exact .snoc (ih fun e => absurd e hpre') hq' ((h.folder q hq').2 ▸ hm)

/-! ## One entry less -/

/-- `T'` is `T` without the entry for `p`, which may be no directory any more. -/
structure Detaches [DecidableEq Node] (T T' : Tree Name Node) (p : Node) : Prop where
  root : T'.root = T.root
  isDir : ∀ q, q ≠ p → T'.isDir q = T.isDir q
  isDir_self : T'.isDir p → T.isDir p
  entries : ∀ q, T'.Folder q → T'.entries q = (T.entries q).filter fun x => x.2 ≠ p
  ne_root : p ≠ T.root

namespace Detaches

variable [DecidableEq Node] {p q x : Node} {cs csp rest : List Name}

theorem folder (h : Detaches T T' p) (hq : T'.Folder q) : T.Folder q := by
  rcases hq with hq | hq
  · exact .inl (hq.trans h.root)
  · by_cases e : q = p
    · subst e
      exact .inr (h.isDir_self hq)
    · exact .inr (h.isDir q e ▸ hq)

theorem folder_of_ne (h : Detaches T T' p) (hq : T.Folder q) (hne : q ≠ p) : T'.Folder q :=
  hq.imp (fun e => e.trans h.root.symm) fun e => (h.isDir q hne).trans e

theorem mem_entries (h : Detaches T T' p) (hq : T'.Folder q) {y : Name × Node} :
    y ∈ T'.entries q ↔ y ∈ T.entries q ∧ y.2 ≠ p := by
  rw [h.entries q hq, List.mem_filter, decide_eq_true_eq]

theorem ok (h : Detaches T T' p) (ok : T.Ok) : T'.Ok := by
  refine ok.mono h.root (fun q hq => h.folder hq) fun q hq => ?_
  rw [h.entries q hq]
  exact List.filter_sublist

/-- **What is below `p` has no path any more; the other nodes keep theirs.** -/
theorem path (h : Detaches T T' p) (ok : T.Ok) (hp : T.Path csp p) :
    T'.Path cs x ↔ T.Path cs x ∧ ¬ csp <+: cs := by
  have hnil : ¬ csp <+: [] := by
    intro e
    rw [List.prefix_nil] at e
    subst e
    exact h.ne_root (Path.root.node_unique ok hp)
  constructor
  · intro hx
    induction hx with
    | root => exact ⟨h.root ▸ .root, hnil⟩
    | @snoc cs q c x _ hq hm ih =>
      obtain ⟨hm, hne⟩ := (h.mem_entries hq).1 hm
      have hpath := Path.snoc ih.1 (h.folder hq) hm
      refine ⟨hpath, fun e => ?_⟩
      rcases List.prefix_concat_iff.1 e with rfl | e
      · exact hne (hp.node_unique ok hpath)
      · exact ih.2 e
  · rintro ⟨hx, hpre⟩
    induction hx with
    | root => exact h.root ▸ .root
    | @snoc cs q c x hq₀ hq hm ih =>
      have hpre' : ¬ csp <+: cs := fun e => hpre (e.trans (List.prefix_append _ _))
      have hqp : q ≠ p := by
        rintro rfl
        exact hpre' (hq₀.unique ok hp ▸ List.prefix_rfl)
      have hxp : x ≠ p := by
        rintro rfl
        exact hpre ((Path.snoc hq₀ hq hm).unique ok hp ▸ List.prefix_rfl)
      have hq' := h.folder_of_ne hq hqp
      exact .snoc (ih hpre') hq' ((h.mem_entries hq').2 ⟨hm, hxp⟩)

theorem below (h : Detaches T T' p) (ok : T.Ok) (hp : T.Path csp p) (hd : T'.isDir = T.isDir) :
    T'.Below p rest x ↔ T.Below p rest x := by
  have hf : ∀ q, T.Folder q → T'.Folder q := fun q hq =>
    hq.imp (fun e => e.trans h.root.symm) fun e => hd ▸ e
  constructor
  · intro hx
    induction hx with
    | here => exact .here
    | snoc _ hq hm ih => exact .snoc ih (h.folder hq) ((h.mem_entries hq).1 hm).1
  · intro hx
    induction hx with
    | here => exact .here
    | @snoc rest q c x hb hq hm ih =>
      refine .snoc ih (hf q hq) ((h.mem_entries (hf q hq)).2 ⟨hm, ?_⟩)
      rintro rfl
      -- `p` is not below itself: it has one path
      have hpath := (ok.path_append hp).2 (.snoc hb hq hm)
      have e := hpath.unique ok hp
      simp at e

section Walk

variable [DecidableEq Name]

theorem walk_other (h : Detaches T T' p) (ok : T.Ok) (hp : T.Path csp p) (hcs : ¬ csp <+: cs) :
    T'.walk T'.root cs = T.walk T.root cs := by
  apply Option.ext
  intro x
  rw [(h.ok ok).walk_root, ok.walk_root, h.path ok hp, and_iff_left hcs]

theorem walk_below (h : Detaches T T' p) (ok : T.Ok) (hp : T.Path csp p) (hcs : csp <+: cs) :
    T'.walk T'.root cs = none := by
  rw [Option.eq_none_iff_forall_ne_some]
  intro x hx
  rw [(h.ok ok).walk_root, h.path ok hp] at hx
  exact hx.2 hcs

end Walk

end Detaches

/-! ## One entry more -/

/-- Folder `q` of `T'` has one more entry than in `T`: the name `c`, for a node `p` that `T` does
not list. -/
structure Attaches (T T' : Tree Name Node) (q : Node) (c : Name) (p : Node) : Prop where
  root : T'.root = T.root
  isDir : T'.isDir = T.isDir
  entries : T'.entries q = T.entries q ++ [(c, p)]
  others : ∀ q', q' ≠ q → T'.entries q' = T.entries q'
  folder : T.Folder q
  name : ∀ x ∈ T.entries q, x.1 ≠ c
  fresh : ∀ q' x, T.Folder q' → x ∈ T.entries q' → x.2 ≠ p
  ne_root : p ≠ T.root

namespace Attaches

variable {q p x : Node} {c : Name} {cs cs₀ rest : List Name}

theorem folder_iff (h : Attaches T T' q c p) (q' : Node) : T'.Folder q' ↔ T.Folder q' := by
  unfold Folder
  rw [h.root, h.isDir]

theorem mem_entries (h : Attaches T T' q c p) (q' : Node) (x : Name × Node) :
    x ∈ T'.entries q' ↔ x ∈ T.entries q' ∨ q' = q ∧ x = (c, p) := by
  by_cases e : q' = q
  · subst e
    rw [h.entries, List.mem_append, List.mem_singleton]
    simp
  · simp [h.others q' e, e]

theorem ok (h : Attaches T T' q c p) (ok : T.Ok) : T'.Ok where
  names q' hq' := by
    by_cases e : q' = q
    · subst e
      rw [h.entries, List.map_append]
      refine (ok.names _ h.folder).append (List.nodup_singleton _) ?_
      simpa [List.disjoint_singleton] using fun x hx => h.name (c, x) hx rfl
    · rw [h.others q' e]
      exact ok.names q' ((h.folder_iff q').1 hq')
  nodes q' hq' := by
    by_cases e : q' = q
    · subst e
      rw [h.entries, List.map_append]
      refine (ok.nodes _ h.folder).append (List.nodup_singleton _) ?_
      simpa [List.disjoint_singleton] using fun x hx => h.fresh q' (x, p) h.folder hx rfl
    · rw [h.others q' e]
      exact ok.nodes q' ((h.folder_iff q').1 hq')
  parent q₁ q₂ x₁ x₂ hq₁ hq₂ hx₁ hx₂ e := by
    rw [h.folder_iff] at hq₁ hq₂
    rw [h.mem_entries] at hx₁ hx₂
    rcases hx₁ with hx₁ | ⟨rfl, rfl⟩
    · rcases hx₂ with hx₂ | ⟨rfl, rfl⟩
      · exact ok.parent q₁ q₂ x₁ x₂ hq₁ hq₂ hx₁ hx₂ e
      · exact absurd e (h.fresh q₁ x₁ hq₁ hx₁)
    · rcases hx₂ with hx₂ | ⟨rfl, rfl⟩
      · exact absurd e.symm (h.fresh q₂ x₂ hq₂ hx₂)
      · rfl
  root q' x hq' hx := by
    rw [h.folder_iff] at hq'
    rw [h.root]
    rcases (h.mem_entries q' x).1 hx with hx | ⟨rfl, rfl⟩
    · exact ok.root q' x hq' hx
    · exact h.ne_root

theorem no_path (h : Attaches T T' q c p) : ¬ T.Path cs p := by
  generalize e : p = x
  intro hp
  cases hp with
  | root => exact h.ne_root e
  | snoc _ hq hm => exact h.fresh _ _ hq hm e.symm

theorem path_mono (h : Attaches T T' q c p) (hx : T.Path cs x) : T'.Path cs x := by
  induction hx with
  | root =>
    rw [← h.root]
    exact .root
  | snoc _ hq hm ih => exact .snoc ih ((h.folder_iff _).2 hq) ((h.mem_entries _ _).2 (.inl hm))

/-- **What is below `p` has a path through the new entry; no other node has a new path.** -/
theorem path (h : Attaches T T' q c p) (ok : T.Ok) (hq : T.Path cs₀ q) :
    T'.Path cs x ↔ T.Path cs x ∨ ∃ rest, cs = cs₀ ++ c :: rest ∧ T.Below p rest x := by
  constructor
  · intro hx
    induction hx with
    | root =>
      rw [h.root]
      exact .inl .root
    | @snoc cs q' c' x _ hq' hm ih =>
      rw [h.folder_iff] at hq'
      rcases (h.mem_entries _ _).1 hm with hm | ⟨rfl, e⟩
      · rcases ih with hp | ⟨rest, rfl, hb⟩
        · exact .inl (.snoc hp hq' hm)
        · exact .inr ⟨rest ++ [c'], by simp, .snoc hb hq' hm⟩
      · cases e
        rcases ih with hp | ⟨rest, rfl, hb⟩
        · exact .inr ⟨[], by rw [hp.unique ok hq], .here⟩
        · obtain ⟨cs', hp⟩ := hb.exists_path ok hq
          exact absurd hp h.no_path
  · rintro (hp | ⟨rest, rfl, hb⟩)
    · exact h.path_mono hp
    · induction hb with
      | here =>
        exact .snoc (h.path_mono hq) ((h.folder_iff q).2 h.folder)
          ((h.mem_entries _ _).2 (.inr ⟨rfl, rfl⟩))
      | @snoc rest q' c' x _ hq' hm ih =>
        have := Path.snoc ih ((h.folder_iff q').2 hq') ((h.mem_entries _ _).2 (.inl hm))
        simpa using this

section Walk

variable [DecidableEq Name]

theorem walk_below (h : Attaches T T' q c p) (ok : T.Ok) (hq : T.Path cs₀ q) :
    T'.walk T'.root (cs₀ ++ c :: rest) = some x ↔ T.Below p rest x := by
  rw [(h.ok ok).walk_root, h.path ok hq]
  constructor
  · rintro (hp | ⟨rest', e, hb⟩)
    · -- `T` has no name `c` in `q`
      rw [List.append_cons] at hp
      obtain ⟨p', hp', -⟩ := hp.split
      obtain ⟨q', hq', hf, hm⟩ := hp'.last
      cases hq'.node_unique ok hq
      exact absurd rfl (h.name _ hm)
    · cases (List.cons.inj (List.append_cancel_left e)).2
      exact hb
  · exact fun hb => .inr ⟨rest, rfl, hb⟩

theorem walk_other (h : Attaches T T' q c p) (ok : T.Ok) (hq : T.Path cs₀ q)
    (hcs : ¬ cs₀ ++ [c] <+: cs) : T'.walk T'.root cs = T.walk T.root cs := by
  apply Option.ext
  intro x
  rw [(h.ok ok).walk_root, ok.walk_root, h.path ok hq]
  constructor
  · rintro (hp | ⟨rest, rfl, -⟩)
    · exact hp
    · exact absurd ⟨rest, by simp⟩ hcs
  · exact .inl

end Walk

end Attaches

/-! ## One more leaf -/

/-- Folder `q` of `T'` has one more entry than in `T`: the name `c`, for a node `p` that `T` does
not know. -/
structure AddsLeaf (T T' : Tree Name Node) (q : Node) (c : Name) (p : Node) : Prop where
  root : T'.root = T.root
  isDir : T'.isDir = T.isDir
  entries : T'.entries q = T.entries q ++ [(c, p)]
  others : ∀ q', q' ≠ q → T'.entries q' = T.entries q'
  folder : T.Folder q
  name : ∀ x ∈ T.entries q, x.1 ≠ c
  fresh : ∀ q' x, T.Folder q' → x ∈ T.entries q' → x.2 ≠ p
  leaf : ¬ T.Folder p

namespace AddsLeaf

variable {q p : Node} {c : Name}

theorem attaches (h : AddsLeaf T T' q c p) : Attaches T T' q c p :=
  { h with ne_root := fun e => h.leaf (.inl e) }

/-- **The new leaf has the path of its folder and its name; no other node has a new path.** -/
theorem path (h : AddsLeaf T T' q c p) (cs : List Name) (p' : Node) :
    T'.Path cs p' ↔ T.Path cs p' ∨ ∃ cs₀, T.Path cs₀ q ∧ cs = cs₀ ++ [c] ∧ p' = p := by
  constructor
  · intro hp
    induction hp with
    | root =>
      rw [h.root]
      exact .inl .root
    | snoc _ hq hm ih =>
      rw [h.attaches.folder_iff] at hq
      -- the leaf is not a folder, so no path leads through it
      have hp := ih.resolve_right fun ⟨_, _, _, e⟩ => h.leaf (e ▸ hq)
      rcases (h.attaches.mem_entries _ _).1 hm with hm | ⟨rfl, e⟩
      · exact .inl (.snoc hp hq hm)
      · cases e
        exact .inr ⟨_, hp, rfl, rfl⟩
  · rintro (hp | ⟨cs₀, hp, rfl, rfl⟩)
    · exact h.attaches.path_mono hp
    · exact .snoc (h.attaches.path_mono hp) ((h.attaches.folder_iff q).2 h.folder)
        ((h.attaches.mem_entries _ _).2 (.inr ⟨rfl, rfl⟩))

section Walk

variable [DecidableEq Name]

theorem walk_new (h : AddsLeaf T T' q c p) (ok : T.Ok) {cs₀ : List Name} (hq : T.Path cs₀ q) :
    T'.walk T'.root (cs₀ ++ [c]) = some p := by
  rw [(h.attaches.ok ok).walk_root, h.path]
  exact .inr ⟨cs₀, hq, rfl, rfl⟩

theorem walk_other (h : AddsLeaf T T' q c p) (ok : T.Ok) {cs₀ cs : List Name} (hq : T.Path cs₀ q)
    (hcs : cs ≠ cs₀ ++ [c]) : T'.walk T'.root cs = T.walk T.root cs := by
  apply Option.ext
  intro p'
  rw [(h.attaches.ok ok).walk_root, ok.walk_root, h.path]
  constructor
  · rintro (hp | ⟨cs₁, h₁, rfl, rfl⟩)
    · exact hp
    · rw [h₁.unique ok hq] at hcs
      exact absurd rfl hcs
  · exact .inl

end Walk

end AddsLeaf

end Tree

end Names
