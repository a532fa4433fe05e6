import EitanOS.Lib.Objects

/-!
# Addresses inside blocks

A pointer of C is null, or points into a block or a literal, some bytes behind its start. `Addr.view m a`
is what lies from `a` to the end of its block.

* `Addr.load`, `Addr.store`, `Addr.free`: accesses through a pointer, with an index.
* `Addr.view_push`, `Addr.view_put`: a view stays when other blocks are written.
* `Text m a s`: the string `s` with its final zero is at `a`.
-/

namespace Objects

open Prog

/-- A pointer, which may be null. -/
inductive Addr
  | null
  | into (p : Ptr) (o : ℕ)
deriving DecidableEq

variable {m : Mem} {a : Addr} {p : Ptr} {b i o : ℕ} {l s t w : List UInt8} {v : UInt8}

namespace Addr

/-- What a pointer points into. -/
def base : Addr → Option Ptr
  | null => none
  | into p _ => some p

/-- `a + i`. -/
def add : Addr → ℕ → Addr
  | null, _ => null
  | into p o, i => into p (o + i)

/-- `b - a`, for two pointers into one block. -/
def distance : Addr → Addr → Option ℕ
  | into p o, into q o' => if p = q ∧ o ≤ o' then some (o' - o) else none
  | _, _ => none

/-- The bytes from `a` on. -/
def view (m : Mem) : Addr → Option (List UInt8)
  | null => none
  | into p o => (m.bytes p).map (·.drop o)

/-- `a[i]`. -/
def load : Addr → ℕ → Code Mem UInt8
  | null, _ => failure
  | into p o, i => Objects.load p (o + i)

/-- `a[i] = v`, for an index that may be negative. -/
def store : Addr → ℤ → UInt8 → Code Mem PUnit
  | null, _, _ => failure
  | into p o, i, v => storeInt p (o + i) v

/-- `free(a)`. -/
def free : Addr → Code Mem PUnit
  | null => return ⟨⟩
  | into p 0 => Objects.free p
  | into _ (_ + 1) => failure

/-- A bound for the rounds of a loop that reads the next byte in every round: there are no more bytes
in the block. -/
def rounds (a : Addr) : Code Mem ℕ := do
  return ((a.view (← get)).getD []).length

theorem store_natCast : store (into p o) (i : ℤ) v = Objects.store p (o + i) v := by
  rw [store, ← Nat.cast_add, storeInt_natCast]

theorem store_zero : store (into p 0) 0 v = Objects.store p 0 v := store_natCast (o := 0) (i := 0)

theorem view_add : (a.add i).view m = (a.view m).map (·.drop i) := by
  cases a with
  | null => rfl
  | into p o => simp [add, view, Function.comp_def]

theorem distance_add (h : a.view m = some l) : a.distance (a.add i) = some i := by
  cases a with
  | null => exact absurd h nofun
  | into p o => simp [add, distance]

theorem exec_load (h : a.view m = some l) (hi : l[i]? = some v) : exec (a.load i) m = (some v, m) := by
  cases a with
  | null => exact absurd h nofun
  | into p o =>
    obtain ⟨k, hk, rfl⟩ := Option.map_eq_some_iff.mp h
    exact Objects.exec_load hk (by rwa [List.getElem?_drop] at hi)

theorem exec_rounds (h : a.view m = some l) : exec a.rounds m = (some l.length, m) := by
  rw [rounds, exec_get_bind, h]
  rfl

theorem base_ne_size (h : a.view m = some l) : a.base ≠ some (.block m.size) := by
  cases a with
  | null => exact nofun
  | into p o =>
    obtain ⟨k, hk, -⟩ := Option.map_eq_some_iff.mp h
    exact fun e => Mem.ne_size hk (Option.some.inj e)

theorem view_push (h : a.view m = some w) : a.view (m.push l) = some w := by
  have hne := base_ne_size h
  cases a with
  | null => exact h
  | into p o =>
    have hp : p ≠ .block m.size := fun e => hne (congrArg some e)
    rw [view, Mem.bytes_push hp]
    exact h

theorem view_put (h : a.view m = some w) (hb : b < m.size) (hne : a.base ≠ some (.block b)) :
    a.view (m.put b l) = some w := by
  cases a with
  | null => exact h
  | into p o =>
    have hp : p ≠ .block b := fun e => hne (congrArg some e)
    rw [view, Mem.bytes_put hb hp]
    exact h

theorem view_block (h : m.look b = some l) : (into (.block b) 0).view m = some l := by
  simp [view, Mem.bytes, h]

end Addr

/-! ## Strings -/

/-- The string `s` is at `a`. -/
structure Text (m : Mem) (a : Addr) (s : List UInt8) : Prop where
  zero_notMem : 0 ∉ s
  view : ∃ r, a.view m = some (s ++ 0 :: r)

theorem Text.mk_look {r : List UInt8} (h : 0 ∉ s) (e : m.look b = some (s ++ 0 :: r)) :
    Text m (.into (.block b) 0) s := ⟨h, r, Addr.view_block e⟩

theorem Text.mk_look_append {r u : List UInt8} (h : 0 ∉ s) (e : m.look b = some (u ++ (s ++ 0 :: r))) :
    Text m (.into (.block b) u.length) s := ⟨h, r, by simp [Addr.view, Mem.bytes, e]⟩

theorem Text.lit (h : 0 ∉ s) : Text m (.into (.lit s) 0) s := ⟨h, [], rfl⟩

theorem Text.load (h : Text m a s) (hi : i < s.length) : exec (a.load i) m = (some s[i], m) := by
  obtain ⟨r, e⟩ := h.view
  exact Addr.exec_load e (by rw [List.getElem?_append_left hi, List.getElem?_eq_getElem hi])

theorem Text.load_zero (h : Text m a s) : exec (a.load s.length) m = (some 0, m) := by
  obtain ⟨r, e⟩ := h.view
  exact Addr.exec_load e (by simp)

theorem Text.getElem_ne (h : Text m a s) (hi : i < s.length) : s[i] ≠ 0 :=
  fun e => h.zero_notMem (e ▸ List.getElem_mem hi)

theorem Text.push (h : Text m a s) : Text (m.push l) a s := by
  obtain ⟨r, e⟩ := h.view
  exact ⟨h.zero_notMem, r, Addr.view_push e⟩

theorem Text.put (h : Text m a s) (hb : b < m.size) (hne : a.base ≠ some (.block b)) :
    Text (m.put b l) a s := by
  obtain ⟨r, e⟩ := h.view
  exact ⟨h.zero_notMem, r, Addr.view_put e hb hne⟩

theorem Text.base_ne_size (h : Text m a s) : a.base ≠ some (.block m.size) := by
  obtain ⟨r, e⟩ := h.view
  exact Addr.base_ne_size e

theorem Text.unique (h : Text m a s) (h' : Text m a t) : s = t := by
  obtain ⟨r, e⟩ := h.view
  obtain ⟨r', e'⟩ := h'.view
  -- both are strings at the start of the same bytes
  refine Str.unique (m := ⟨[some (s ++ 0 :: r)], fun _ _ => 0⟩) (p := .block 0) ?_ ?_
  · exact .mk_look h.zero_notMem rfl
  · exact .mk_look h'.zero_notMem (e.symm.trans e')

end Objects
