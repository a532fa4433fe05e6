import EitanOS.Lib.Prog
import Mathlib.Data.List.Basic
import Mathlib.Data.List.Forall2
import Mathlib.Data.UInt

/-!
# Memory as blocks of bytes

A block is allocated with a size and is live until it is freed. A pointer points to the start of a
block or to a string literal. An access outside a live block, a second `free` and a store into a literal
stop the program, so that a program that returns has made none of them.

* `load`, `store`, `malloc`, `free`, and what each does to a memory (`exec_load`, `exec_store`, …).
* `Mem.look`: the bytes of a live block, with one lemma for each way to change a memory.
* `Str m p s`: the string `s` with its final zero is at `p`.
* **`Parts m₀ m ps`**: all that is new since `m₀` are strings in blocks of their own, with `Parts.push` and
  `Parts.free` for a new one and for the end of one.
-/

namespace Objects

open Prog

/-- A pointer. -/
inductive Ptr
  | block (b : ℕ)
  | lit (s : List UInt8)
deriving DecidableEq

/-- The blocks in the order of their allocation, `none` once they are freed. `junk b` is what memory
that is allocated as block `b` holds at first. -/
structure Mem where
  cells : List (Option (List UInt8))
  junk : ℕ → ℕ → UInt8

namespace Mem

/-- The bytes of a live block. -/
def look (m : Mem) (b : ℕ) : Option (List UInt8) := m.cells[b]?.join

/-- The number of the next block. -/
def size (m : Mem) : ℕ := m.cells.length

/-- The bytes that can be read behind a pointer. -/
def bytes (m : Mem) : Ptr → Option (List UInt8)
  | .block b => m.look b
  | .lit s => some (s ++ [0])

/-- New bytes in a block. -/
def put (m : Mem) (b : ℕ) (l : List UInt8) : Mem := { m with cells := m.cells.set b (some l) }

/-- A new block. -/
def push (m : Mem) (l : List UInt8) : Mem := { m with cells := m.cells ++ [some l] }

/-- A block is gone. -/
def drop (m : Mem) (b : ℕ) : Mem := { m with cells := m.cells.set b none }

variable {m : Mem} {b c : ℕ} {l l' : List UInt8}

theorem lt_size (h : m.look b = some l) : b < m.size := by
  by_contra hb
  simp [Mem.look, List.getElem?_eq_none (Nat.not_lt.mp hb)] at h

theorem look_of_size_le (h : m.size ≤ b) : m.look b = none := by
  simp [Mem.look, List.getElem?_eq_none h]

@[simp] theorem size_put : (m.put b l).size = m.size := List.length_set

@[simp] theorem size_push : (m.push l).size = m.size + 1 := List.length_append

@[simp] theorem size_drop : (m.drop b).size = m.size := List.length_set

theorem look_put (h : b < m.size) : (m.put b l).look c = if c = b then some l else m.look c := by
  unfold Mem.look put
  dsimp only
  split_ifs with hc
  · rw [hc, List.getElem?_set_self h]
    rfl
  · rw [List.getElem?_set_ne (Ne.symm hc)]

theorem look_push : (m.push l).look c = if c = m.size then some l else m.look c := by
  unfold Mem.look push
  dsimp only
  split_ifs with hc
  · rw [hc]
    simp [size]
  · rcases Nat.lt_or_gt_of_ne hc with h | h
    · rw [List.getElem?_append_left h]
    · have hc : m.cells.length + 1 ≤ c := h
      rw [List.getElem?_eq_none (by simpa using hc), List.getElem?_eq_none (by omega)]

theorem look_put_self (h : b < m.size) : (m.put b l).look b = some l := (look_put h).trans (if_pos rfl)

theorem look_push_self : (m.push l).look m.size = some l := look_push.trans (if_pos rfl)

theorem look_drop : (m.drop b).look c = if c = b then none else m.look c := by
  unfold Mem.look drop
  dsimp only
  split_ifs with hc
  · rw [hc, List.getElem?_set, if_pos rfl]
    split_ifs <;> rfl
  · rw [List.getElem?_set_ne (Ne.symm hc)]

theorem push_put : (m.push l).put m.size l' = m.push l' := by
  simp [push, put, size]

theorem push_put_of_lt (h : b < m.size) : (m.push l).put b l' = (m.put b l').push l := by
  unfold push put
  dsimp only
  rw [List.set_append_left _ _ h]

theorem put_put : (m.put b l).put b l' = m.put b l' := by
  simp [put]

theorem put_look (h : m.look b = some l) : m.put b l = m := by
  have hb : b < m.cells.length := lt_size h
  have hl : m.cells[b] = some l := by
    rw [Mem.look, List.getElem?_eq_getElem hb] at h
    exact h
  unfold put
  rw [← hl, List.set_getElem_self]

end Mem

variable {m : Mem} {p q : Ptr} {b i n : ℕ} {l s : List UInt8} {v : UInt8}

theorem Mem.ne_size (h : m.bytes p = some l) : p ≠ .block m.size := by
  rintro rfl
  exact absurd (Mem.lt_size h) (Nat.lt_irrefl _)

theorem Mem.bytes_put (hb : b < m.size) (hp : p ≠ .block b) : (m.put b l).bytes p = m.bytes p := by
  cases p with
  | lit s => rfl
  | block c =>
    have hc : c ≠ b := fun e => hp (congrArg Ptr.block e)
    exact (Mem.look_put hb).trans (if_neg hc)

theorem Mem.bytes_push (hp : p ≠ .block m.size) : (m.push l).bytes p = m.bytes p := by
  cases p with
  | lit s => rfl
  | block c =>
    have hc : c ≠ m.size := fun e => hp (congrArg Ptr.block e)
    exact Mem.look_push.trans (if_neg hc)

/-! ## Accesses -/

/-- `p[i]`. -/
def load (p : Ptr) (i : ℕ) : Code Mem UInt8 := do
  match ((← get).bytes p).bind (·[i]?) with
  | some v => return v
  | none => failure

/-- `p[i] = v`. -/
def store (p : Ptr) (i : ℕ) (v : UInt8) : Code Mem PUnit := do
  match p with
  | .lit _ => failure
  | .block b =>
    match (← get).look b with
    | some l => if i < l.length then modify fun m => m.put b (l.set i v) else failure
    | none => failure

/-- `p[i] = v` for an index that may be negative. -/
def storeInt (p : Ptr) (i : ℤ) (v : UInt8) : Code Mem PUnit :=
  if 0 ≤ i then store p i.toNat v else failure

@[simp] theorem storeInt_natCast : storeInt p (i : ℤ) v = store p i v := by
  simp [storeInt]

/-- `malloc(n)`, when it succeeds. -/
def malloc (n : ℕ) : Code Mem Ptr := do
  let m ← get
  set (m.push ((List.range n).map (m.junk m.size)))
  return .block m.size

/-- `free(p)`. -/
def free (p : Ptr) : Code Mem PUnit := do
  match p with
  | .lit _ => failure
  | .block b =>
    match (← get).look b with
    | some _ => modify fun m => m.drop b
    | none => failure

theorem exec_load (h : m.bytes p = some l) (hi : l[i]? = some v) : exec (load p i) m = (some v, m) := by
  simp [load, h, hi]

theorem exec_load_none (h : m.bytes p = some l) (hi : l.length ≤ i) : exec (load p i) m = (none, m) := by
  simp [load, h, List.getElem?_eq_none hi]

theorem exec_store (h : m.look b = some l) (hi : i < l.length) :
    exec (store (.block b) i v) m = (some ⟨⟩, m.put b (l.set i v)) := by
  simp only [store, exec_get_bind, h, if_pos hi]
  rfl

theorem exec_store_none (h : m.look b = some l) (hi : l.length ≤ i) :
    exec (store (.block b) i v) m = (none, m) := by
  simp [store, h, Nat.not_lt.mpr hi]

theorem exec_malloc (m : Mem) (n : ℕ) :
    exec (malloc n) m = (some (.block m.size), m.push ((List.range n).map (m.junk m.size))) := rfl

theorem exec_free (h : m.look b = some l) : exec (free (.block b)) m = (some ⟨⟩, m.drop b) := by
  simp only [free, exec_get_bind, h]
  rfl

theorem set_length_append {w r : List UInt8} {x y : UInt8} :
    (w ++ y :: r).set w.length x = w ++ x :: r := by
  rw [List.set_append_right _ _ le_rfl, Nat.sub_self, List.set_cons_zero]

theorem set_length_append_drop {w : List UInt8} {n : ℕ} {x : UInt8} (hw : w.length = n)
    (hl : l.length = n + 1) : (w ++ l.drop n).set n x = w ++ [x] := by
  have hrest : (l.drop n).length = 1 := by
    rw [List.length_drop, hl, Nat.add_sub_cancel_left]
  obtain ⟨y, hy⟩ := List.length_eq_one_iff.mp hrest
  rw [hy, ← hw, set_length_append]

theorem set_length_append_append_drop {s t : List UInt8} {x : UInt8} (hl : l.length = s.length + t.length + 1) :
    ((s ++ l.drop s.length).take s.length ++ t ++ (s ++ l.drop s.length).drop (s.length + t.length)).set
      (s.length + t.length) x = s ++ t ++ [x] := by
  rw [List.take_left, List.drop_append, List.drop_eq_nil_of_le (Nat.le_add_right _ _), List.nil_append,
    List.drop_drop, Nat.add_sub_cancel_left]
  exact set_length_append_drop List.length_append hl

theorem take_length_succ {s r : List UInt8} {x : UInt8} : (s ++ x :: r).take (s.length + 1) = s ++ [x] := by
  rw [List.take_append, List.take_of_length_le (Nat.le_succ _), Nat.add_sub_cancel_left]
  rfl

theorem drop_eq_drop_iff {s t : List UInt8} (hs : i < s.length) (ht : i < t.length) :
    s.drop i = t.drop i ↔ s[i] = t[i] ∧ s.drop (i + 1) = t.drop (i + 1) := by
  rw [List.drop_eq_getElem_cons hs, List.drop_eq_getElem_cons ht, List.cons.injEq]

theorem set_take_append_drop {w : List UInt8} (hw : i < w.length) (hl : i < l.length) :
    (w.take i ++ l.drop i).set i w[i] = w.take (i + 1) ++ l.drop (i + 1) := by
  rw [List.drop_eq_getElem_cons hl, List.set_append_right _ _ (by simp), List.length_take_of_le hw.le,
    Nat.sub_self, List.set_cons_zero, List.take_succ_eq_append_getElem hw, List.append_assoc,
    List.singleton_append]

/-- **A loop that fills a block** from `o` on with the bytes `w`, which it computes one by one. -/
theorem exec_forM_store (val : ℕ → Code Mem UInt8) (w : List UInt8) (o : ℕ) (hb : m.look b = some l)
    (hval : ∀ i (hi : i < w.length) l', exec (val i) (m.put b l') = (some w[i], m.put b l'))
    (ho : o + w.length ≤ l.length) :
    exec ((List.range w.length).forM fun i => val i >>= fun v => store (.block b) (o + i) v) m =
      (some ⟨⟩, m.put b (l.take o ++ w ++ l.drop (o + w.length))) := by
  have hlt := Mem.lt_size hb
  -- before round `i`, the first `i` bytes of `w` are in place
  let g : ℕ → Mem := fun i => m.put b (l.take o ++ w.take i ++ l.drop (o + i))
  have h₀ : g 0 = m := by
    simp only [g, List.take_zero, List.append_nil, Nat.add_zero, List.take_append_drop]
    exact Mem.put_look hb
  have hn : g w.length = m.put b (l.take o ++ w ++ l.drop (o + w.length)) := by
    simp only [g, List.take_length]
  rw [← hn]
  nth_rewrite 1 [← h₀]
  refine exec_forM_range fun i hi => ?_
  rw [exec_bind_some (hval i hi _), exec_store (Mem.look_put_self hlt), Mem.put_put]
  · have hpre : (l.take o).length = o := List.length_take_of_le (by omega)
    have htake : ∀ k, l.take o ++ w.take k = (l.take o ++ w).take (o + k) := fun k => by
      rw [List.take_append, List.take_of_length_le (l := l.take o) (by omega), hpre,
        Nat.add_sub_cancel_left]
    have hlen : o + i < (l.take o ++ w).length := by
      rw [List.length_append, hpre]
      omega
    have hget : w[i] = (l.take o ++ w)[o + i] := by
      rw [List.getElem_append_right (by omega)]
      simp only [hpre, Nat.add_sub_cancel_left]
    simp only [g, htake]
    rw [hget, set_take_append_drop hlen (by omega), Nat.add_assoc]
  · simp
    omega

/-! ## Strings -/

/-- The string `s` is at `p`. -/
structure Str (m : Mem) (p : Ptr) (s : List UInt8) : Prop where
  zero_notMem : 0 ∉ s
  bytes : ∃ r, m.bytes p = some (s ++ 0 :: r)

theorem Str.lit (h : 0 ∉ s) : Str m (.lit s) s := ⟨h, [], rfl⟩

theorem Str.mk_look {r : List UInt8} (h : 0 ∉ s) (e : m.look b = some (s ++ 0 :: r)) : Str m (.block b) s :=
  ⟨h, r, e⟩

theorem Str.load (h : Str m p s) (hi : i < s.length) : exec (load p i) m = (some s[i], m) := by
  obtain ⟨-, r, e⟩ := h
  exact exec_load e (by rw [List.getElem?_append_left hi, List.getElem?_eq_getElem hi])

theorem Str.load_zero (h : Str m p s) : exec (Objects.load p s.length) m = (some 0, m) := by
  obtain ⟨-, r, e⟩ := h
  exact exec_load e (by simp)

theorem Str.getElem_ne (h : Str m p s) (hi : i < s.length) : s[i] ≠ 0 :=
  fun e => h.zero_notMem (e ▸ List.getElem_mem hi)

theorem Str.congr {m' : Mem} (h : Str m p s) (e : m'.bytes p = m.bytes p) : Str m' p s :=
  ⟨h.zero_notMem, e ▸ h.bytes⟩

theorem Str.ne_size (h : Str m p s) : p ≠ .block m.size := by
  obtain ⟨-, r, e⟩ := h
  exact Mem.ne_size e

theorem Str.push (h : Str m p s) : Str (m.push l) p s := h.congr (Mem.bytes_push h.ne_size)

theorem Str.put (h : Str m p s) (hb : b < m.size) (hp : p ≠ .block b) : Str (m.put b l) p s :=
  h.congr (Mem.bytes_put hb hp)

theorem Str.unique (h : Str m p s) (h' : Str m p l) : s = l := by
  obtain ⟨r, e⟩ := h.bytes
  obtain ⟨r', e'⟩ := h'.bytes
  have hcut : ∀ {u v : List UInt8}, 0 ∉ u → (u ++ 0 :: v).takeWhile (· ≠ 0) = u := fun {u v} hu => by
    rw [List.takeWhile_append_of_pos fun x hx => by simpa using fun h : x = 0 => hu (h ▸ hx)]
    simp
  rw [← hcut (v := r) h.zero_notMem, ← hcut (v := r') h'.zero_notMem, Option.some.inj (e.symm.trans e')]

theorem Str.forall₂_unique {ps : List Ptr} {ss ts : List (List UInt8)} (h : List.Forall₂ (Str m) ps ss)
    (h' : List.Forall₂ (Str m) ps ts) : ss = ts := by
  induction h generalizing ts with
  | nil => rw [List.forall₂_nil_left_iff.mp h']
  | cons hs _ ih =>
    cases h' with
    | cons ht h' => rw [hs.unique ht, ih h']

/-! ## Strings in blocks of their own -/

/-- The pointers to some blocks. -/
def pointers (ps : List (ℕ × List UInt8)) : List Ptr := ps.map fun x => .block x.1

/-- The parts `ps` are strings in blocks of their own that were allocated since `m₀`. Everything else is
as in `m₀`, so that what was allocated and is not one of the parts has been freed. -/
structure Parts (m₀ m : Mem) (ps : List (ℕ × List UInt8)) : Prop where
  size_le : m₀.size ≤ m.size
  parts : ∀ x ∈ ps, m₀.size ≤ x.1 ∧ m.look x.1 = some (x.2 ++ [0])
  nodup : (ps.map Prod.fst).Nodup
  rest : ∀ b, b ∉ ps.map Prod.fst → m.look b = m₀.look b

namespace Parts

variable {m₀ : Mem} {ps qs : List (ℕ × List UInt8)} {x : ℕ × List UInt8}

theorem refl (m : Mem) : Parts m m [] := ⟨le_rfl, nofun, List.nodup_nil, fun _ _ => rfl⟩

theorem fst_lt (h : Parts m₀ m ps) (hb : b ∈ ps.map Prod.fst) : m₀.size ≤ b ∧ b < m.size := by
  obtain ⟨x, hx, rfl⟩ := List.mem_map.mp hb
  exact ⟨(h.parts x hx).1, Mem.lt_size (h.parts x hx).2⟩

theorem look_of_lt (h : Parts m₀ m ps) (hb : b < m₀.size) : m.look b = m₀.look b :=
  h.rest b fun hmem => absurd (h.fst_lt hmem).1 (Nat.not_le.mpr hb)

theorem push (h : Parts m₀ m ps) (w : List UInt8) :
    Parts m₀ (m.push (w ++ [0])) (ps ++ [(m.size, w)]) := by
  have hne : ∀ b ∈ ps.map Prod.fst, b ≠ m.size := fun b hb => Nat.ne_of_lt (h.fst_lt hb).2
  refine ⟨h.size_le.trans (by simp), fun x hx => ?_, ?_, fun b hb => ?_⟩
  · rw [Mem.look_push]
    rcases List.mem_append.mp hx with hx | hx
    · rw [if_neg (hne _ (List.mem_map_of_mem hx))]
      exact h.parts x hx
    · rw [List.mem_singleton.mp hx, if_pos rfl]
      exact ⟨h.size_le, rfl⟩
  · rw [List.map_append]
    refine List.nodup_append.mpr ⟨h.nodup, List.nodup_singleton _, fun b hb c hc => ?_⟩
    rw [List.map_singleton, List.mem_singleton] at hc
    exact hc ▸ hne b hb
  · simp only [List.map_append, List.mem_append, not_or, List.map_singleton, List.mem_singleton] at hb
    rw [Mem.look_push, if_neg hb.2]
    exact h.rest b hb.1

/-- **A part is freed.** -/
theorem free (h : Parts m₀ m (ps ++ x :: qs)) : exec (Objects.free (.block x.1)) m = (some ⟨⟩, m.drop x.1) ∧
    Parts m₀ (m.drop x.1) (ps ++ qs) := by
  obtain ⟨hsize, hparts, hnodup, hrest⟩ := h
  have hx := hparts x (by simp)
  rw [List.map_append, List.map_cons, List.nodup_middle, List.nodup_cons, ← List.map_append] at hnodup
  refine ⟨exec_free hx.2, by rwa [Mem.size_drop], fun y hy => ?_, hnodup.2, fun b hb => ?_⟩
  · have hne : y.1 ≠ x.1 := fun e => hnodup.1 (e ▸ List.mem_map_of_mem hy)
    rw [Mem.look_drop, if_neg hne]
    refine hparts y ?_
    rw [List.mem_append, List.mem_cons]
    rw [List.mem_append] at hy
    tauto
  · rw [Mem.look_drop]
    split_ifs with hbx
    · rw [hbx, Mem.look_of_size_le hx.1]
    · refine hrest b ?_
      simp only [List.map_append, List.map_cons, List.mem_append, List.mem_cons, not_or] at hb ⊢
      exact ⟨hb.1, hbx, hb.2⟩

theorem free_last (h : Parts m₀ m (ps ++ [x])) : exec (Objects.free (.block x.1)) m = (some ⟨⟩, m.drop x.1) ∧
    Parts m₀ (m.drop x.1) ps := by
  have hfree := h.free
  rwa [List.append_nil] at hfree

theorem free_head (h : Parts m₀ m (x :: ps)) : exec (Objects.free (.block x.1)) m = (some ⟨⟩, m.drop x.1) ∧
    Parts m₀ (m.drop x.1) ps := by
  rw [← List.nil_append (x :: ps)] at h
  exact h.free

theorem put (h : Parts m₀ m ps) (hb : b < m₀.size) (l : List UInt8) :
    Parts (m₀.put b l) (m.put b l) ps := by
  have hlt : b < m.size := hb.trans_le h.size_le
  refine ⟨by simpa using h.size_le, fun x hx => ?_, h.nodup, fun c hc => ?_⟩
  · obtain ⟨hle, hl⟩ := h.parts x hx
    have hne : x.1 ≠ b := fun e => absurd hle (by omega)
    rw [Mem.look_put hlt, if_neg hne, Mem.size_put]
    exact ⟨hle, hl⟩
  · rw [Mem.look_put hlt, Mem.look_put hb, h.rest c hc]

theorem bytes_before (h : Parts m₀ m ps) (hp : m₀.bytes p = some l) : m.bytes p = some l := by
  cases p with
  | lit w => exact hp
  | block b => exact (h.look_of_lt (Mem.lt_size hp)).trans hp

theorem str_before (h : Parts m₀ m ps) (hp : Str m₀ p s) : Str m p s := by
  obtain ⟨r, e⟩ := hp.bytes
  exact ⟨hp.zero_notMem, r, h.bytes_before e⟩

theorem str (h : Parts m₀ m ps) (hx : x ∈ ps) (h₀ : 0 ∉ x.2) : Str m (.block x.1) x.2 :=
  .mk_look h₀ (h.parts x hx).2

theorem forall₂_str (h : Parts m₀ m ps) (h₀ : ∀ x ∈ ps, 0 ∉ x.2) :
    List.Forall₂ (Str m) (pointers ps) (ps.map Prod.snd) := by
  rw [pointers, List.forall₂_map_left_iff, List.forall₂_map_right_iff, List.forall₂_same]
  exact fun x hx => h.str hx (h₀ x hx)

end Parts

end Objects
