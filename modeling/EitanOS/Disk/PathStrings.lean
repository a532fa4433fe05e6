import EitanOS.Disk.Paths
import EitanOS.Util.Strings

/-!
# The path functions on strings in memory

`is_valid_path`, `split_path` and `str_split` each scan a path on their own. `isValidPath` and `splitPath`
here read the bytes of the path one by one; the functions of the same names on lists are what they compute.

* **`exec_isValidPath`**: for every string, also past the length that `strlen` can tell.
* **`exec_splitPath`**: two new blocks, with the path up to its last slash and with the name.
* **`path_functions_agree`**: all of them describe the same components.
-/

namespace Util

open Prog Objects Words
open Shell (toSize)
open EitanOS (slash joinPath Component)

/-! ## The functions -/

/-- The loop of `is_valid_path` for `k` rounds from `path[i]` on: `component_len` at its end, `none` where it
returns `false`. -/
def validLoop (path : Addr) : ℕ → ℕ → ℕ → Code Mem (Option ℕ)
  | 0, _, componentLen => return some componentLen
  | k + 1, i, componentLen => do
    let c ← path.load i
    if c = slash then
      if componentLen = 0 then return none else validLoop path k (i + 1) 0
    else if c = 0 then return none
    else if 60 < componentLen + 1 then return none
    else validLoop path k (i + 1) (componentLen + 1)

/-- `is_valid_path`. `len` is unsigned: the `-1` of `strlen` is a length that the loop does not reach. -/
def isValidPath (path : Addr) : Code Mem Bool :=
  if path = .null then return false
  else do
    if (← path.load 0) ≠ slash then return false
    else do
      let len := toSize (← strlen path)
      if len = 0 then return false
      else do
        match ← validLoop path (len - 1) 1 0 with
        | none => return false
        | some componentLen => return !(componentLen = 0 && 1 < len)

/-- `split_path`: `*dir_path_out` and `*name_out`. Without a slash in the path, the index is the difference
of null and the path. -/
def splitPath (path : Addr) : Code Mem (Addr × Addr) := do
  match path.distance (← strrchr path slash) with
  | none => failure
  | some lastSlashIdx => do
    let nameSize := toSize ((← strlen path) - lastSlashIdx)
    let name ← malloc nameSize
    let dirPath ← malloc (lastSlashIdx + 2)
    memcpy name (path.add (lastSlashIdx + 1)) nameSize
    memcpy dirPath path (lastSlashIdx + 1)
    dirPath.store ((lastSlashIdx + 1 : ℕ) : ℤ) 0
    return (dirPath, name)

variable {m : Mem} {a : Addr} {i k n : ℕ} {c p s t u v : List UInt8} {cs : List (List UInt8)}

/-! ## `is_valid_path` -/

theorem exec_validLoop (h : Text m a (s ++ t)) : ∃ r : Option ℕ,
    exec (validLoop a t.length s.length n) m = (some r, m) ∧
      EitanOS.componentsOk n t = decide (r.getD 0 ≠ 0) := by
  induction t generalizing s n with
  | nil => exact ⟨some n, rfl, rfl⟩
  | cons x t ih =>
    have hlt : s.length < (s ++ x :: t).length := by simp
    have hx : (s ++ x :: t)[s.length] = x := by simp
    have hx₀ : x ≠ 0 := hx ▸ h.getElem_ne hlt
    have hnext : ∀ n, ∃ r : Option ℕ, exec (validLoop a t.length (s.length + 1) n) m = (some r, m) ∧
        EitanOS.componentsOk n t = decide (r.getD 0 ≠ 0) := fun n => by
      have := ih (s := s ++ [x]) (n := n) (by simpa using h)
      rwa [List.length_append, List.length_singleton] at this
    rw [List.length_cons, validLoop, exec_bind_some (h.load hlt), hx, EitanOS.componentsOk]
    by_cases hsl : x = slash
    · rw [if_pos hsl, if_pos hsl]
      by_cases hn : n = 0
      · rw [if_pos hn]
        exact ⟨none, rfl, by simp [hn]⟩
      · rw [if_neg hn]
        obtain ⟨r, he, hr⟩ := hnext 0
        exact ⟨r, he, by simp [hn, hr]⟩
    · rw [if_neg hsl, if_neg hsl, if_neg hx₀, if_neg hx₀]
      by_cases hn : 60 < n + 1
      · rw [if_pos hn]
        exact ⟨none, rfl, by simp [Nat.not_le.mpr hn]⟩
      · rw [if_neg hn]
        obtain ⟨r, he, hr⟩ := hnext (n + 1)
        exact ⟨r, he, by simp [Nat.not_lt.mp hn, hr]⟩

theorem exec_validLoop_long (h : Text m a (s ++ t)) (hk : t.length < k) :
    exec (validLoop a k s.length n) m = (some none, m) := by
  induction t generalizing s n k with
  | nil =>
    rw [List.append_nil] at h
    obtain ⟨k, rfl⟩ := Nat.exists_eq_succ_of_ne_zero (Nat.ne_of_gt hk)
    rw [validLoop, exec_bind_some h.load_zero, if_neg (by decide), if_pos rfl]
    rfl
  | cons x t ih =>
    obtain ⟨k, rfl⟩ := Nat.exists_eq_succ_of_ne_zero (Nat.ne_of_gt (Nat.zero_lt_of_lt hk))
    have hlt : s.length < (s ++ x :: t).length := by simp
    have hnext : ∀ n, exec (validLoop a k (s.length + 1) n) m = (some none, m) := fun n => by
      have := ih (s := s ++ [x]) (n := n) (k := k) (by simpa using h) (by simpa using hk)
      rwa [List.length_append, List.length_singleton] at this
    rw [validLoop, exec_bind_some (h.load hlt)]
    split_ifs
    · rfl
    · exact hnext 0
    · rfl
    · rfl
    · exact hnext (n + 1)

/-- **`is_valid_path`** of any string that fits into memory. -/
theorem exec_isValidPath (h : Text m a s) (hs : s.length < 2 ^ 64 - 1) :
    exec (isValidPath a) m = (some (EitanOS.isValidPath s), m) := by
  have hnull : a ≠ .null := by
    rintro rfl
    obtain ⟨r, e⟩ := h.view
    exact absurd e nofun
  rw [isValidPath, if_neg hnull]
  cases s with
  | nil =>
    have hload : exec (a.load 0) m = (some 0, m) := h.load_zero
    rw [exec_bind_some hload, if_pos (by decide)]
    rfl
  | cons x t =>
    have hload : exec (a.load 0) m = (some x, m) := h.load (i := 0) (by simp)
    rw [exec_bind_some hload]
    by_cases hx : x = slash
    · rw [if_neg (not_not.mpr hx), exec_bind_some (exec_strlen h), lengthOrError, EitanOS.isValidPath]
      by_cases hl : (x :: t).length ≤ 1001
      · have hsize : toSize ((x :: t).length : ℤ) = t.length + 1 := Shell.toSize_natCast (by omega)
        rw [if_pos hl, hsize, if_neg (by omega), Nat.add_sub_cancel, decide_eq_true hl]
        obtain ⟨r, he, hr⟩ := exec_validLoop (s := [x]) (n := 0) h
        rw [List.length_singleton] at he
        rw [exec_bind_some he, List.tail_cons, hr]
        cases t with
        | nil =>
          obtain rfl : r = some 0 := Option.some.inj (congrArg Prod.fst he).symm
          simp [hx]
        | cons y t =>
          cases r with
          | none => simp [hx]
          | some k => simp [hx]
      · have hsize : toSize (-1) = 2 ^ 64 - 1 := rfl
        have hloop := exec_validLoop_long (s := [x]) (n := 0) (k := 2 ^ 64 - 1 - 1) h
          (by rw [List.length_cons] at hs; omega)
        rw [List.length_singleton] at hloop
        rw [if_neg hl, hsize, if_neg (by omega), exec_bind_some hloop, decide_eq_false hl]
        simp
    · rw [if_pos hx, EitanOS.isValidPath]
      simp [hx]

/-! ## `split_path` -/

/-- **`split_path`** leaves the name and the path up to it in two new blocks. -/
theorem exec_splitPath (h : Text m a (u ++ slash :: v)) (hv : slash ∉ v)
    (hl : (u ++ slash :: v).length ≤ 1001) : exec (splitPath a) m =
      (some (.into (.block (m.size + 1)) 0, .into (.block m.size) 0),
        (m.push (v ++ [0])).push (u ++ [slash] ++ [0])) := by
  obtain ⟨r, e⟩ := h.view
  have hlen : lengthOrError (u ++ slash :: v) = ((u.length + 1 + v.length : ℕ) : ℤ) := by
    rw [lengthOrError, if_pos hl]
    simp
    omega
  have hsize : toSize (((u.length + 1 + v.length : ℕ) : ℤ) - u.length) = v.length + 1 := by
    rw [List.length_append, List.length_cons] at hl
    unfold toSize
    omega
  have hview : (a.add (u.length + 1)).view m = some (v ++ 0 :: r) := by
    rw [Addr.view_add, e]
    simp
  have hbase : (a.add (u.length + 1)).base = a.base := by
    cases a <;> rfl
  rw [List.length_append, List.length_cons] at hl
  rw [splitPath, exec_bind_some (exec_strrchr h hv), Addr.distance_add e]
  dsimp only
  rw [exec_bind_some (exec_strlen h), hlen, hsize, exec_bind_some (exec_malloc (by omega) (by omega)),
    exec_bind_some (exec_malloc (by omega) (by omega))]
  generalize hj₁ : fresh m (v.length + 1) = j₁
  generalize hj₂ : fresh (m.push j₁) (u.length + 2) = j₂
  have hl₁ : j₁.length = v.length + 1 := by rw [← hj₁, length_fresh]
  have hl₂ : j₂.length = u.length + 2 := by rw [← hj₂, length_fresh]
  have hsz : ∀ l, (m.push l).size = m.size + 1 := fun l => Mem.size_push
  -- the name, in the first of the two blocks
  have hlook₁ : ((m.push j₁).push j₂).look m.size = some j₁ := by
    rw [Mem.look_push, if_neg (by rw [hsz]; omega), Mem.look_push_self]
  have hname := exec_memcpy (n := v.length + 1) hlook₁ (Addr.view_push (Addr.view_push hview))
    (by rw [hbase]; exact h.base_ne_size) (by omega) (by simp)
  rw [take_length_succ, List.drop_eq_nil_of_le (by omega), List.append_nil,
    Mem.push_put_of_lt (by rw [hsz]; omega), Mem.push_put] at hname
  rw [exec_bind_some hname, hsz, ← hsz (v ++ [0])]
  -- the path up to it, in the second
  have hdir := exec_memcpy (n := u.length + 1) (Mem.look_push_self (m := m.push (v ++ [0])) (l := j₂))
    (Addr.view_push (Addr.view_push e)) (h.push (l := v ++ [0])).base_ne_size (by omega) (by simp)
  have htake : (u ++ slash :: v ++ 0 :: r).take (u.length + 1) = u ++ [slash] := by
    rw [List.append_assoc]
    exact take_length_succ
  rw [htake, Mem.push_put] at hdir
  rw [exec_bind_some hdir, Addr.store_natCast, Nat.zero_add,
    exec_bind_some (exec_store Mem.look_push_self (by simp [hl₂])), Mem.push_put,
    set_length_append_drop (n := u.length + 1) List.length_append hl₂]
  simp

/-! ## Components -/

/-- The components of a path: none for `/`. -/
structure IsPath (p : List UInt8) (cs : List (List UInt8)) : Prop where
  eq : p = if cs = [] then [slash] else joinPath cs
  parts : ∀ c ∈ cs, c ≠ [] ∧ slash ∉ c ∧ c.length ≤ 60

theorem IsPath.eq_append (h : IsPath p cs) : p = joinPath cs.dropLast ++ slash :: cs.getLast?.getD [] := by
  rw [h.eq]
  rcases List.eq_nil_or_concat cs with rfl | ⟨cs, c, rfl⟩
  · rfl
  · simp [joinPath]

theorem IsPath.component (h : IsPath p cs) (h₀ : 0 ∉ p) (hc : c ∈ cs) : Component c := by
  obtain ⟨hne, hsl, hl⟩ := h.parts c hc
  refine ⟨hne, hsl, fun hz => h₀ ?_, hl⟩
  rw [h.eq, if_neg (List.ne_nil_of_mem hc)]
  exact List.mem_flatMap.mpr ⟨c, hc, List.mem_cons_of_mem _ hz⟩

theorem IsPath.slash_notMem_getLast (h : IsPath p cs) : slash ∉ cs.getLast?.getD [] := by
  cases hc : cs.getLast? with
  | none => exact List.not_mem_nil
  | some c => exact (h.parts c (List.mem_of_getLast? hc)).2.1

theorem IsPath.splitPath_eq (h : IsPath p cs) :
    EitanOS.splitPath p = (joinPath cs.dropLast ++ [slash], cs.getLast?.getD []) := by
  rw [h.eq_append, EitanOS.splitPath_append h.slash_notMem_getLast]

theorem IsPath.words_eq (h : IsPath p cs) : words slash p = cs := by
  rw [h.eq]
  split_ifs with hcs
  · rw [hcs]
    rfl
  · exact words_glue fun c hc => ⟨(h.parts c hc).1, (h.parts c hc).2.1⟩

theorem IsPath.words_parent (h : IsPath p cs) : words slash (joinPath cs.dropLast ++ [slash]) = cs.dropLast := by
  rw [words_append_cons, words_nil, List.append_nil]
  refine words_glue fun c hc => ?_
  obtain ⟨hne, hsl, -⟩ := h.parts c (List.mem_of_mem_dropLast hc)
  exact ⟨hne, hsl⟩

theorem head?_joinPath : (joinPath cs ++ slash :: s).head? = some slash := by
  cases cs with
  | nil => rfl
  | cons c cs => rw [EitanOS.joinPath_cons]; rfl

/-- **The lookup of a path** walks its components. -/
theorem IsPath.resolvePath_eq (h : IsPath p cs) (h₀ : 0 ∉ p) {junk : EitanOS.Junk} {drive : EitanOS.Drive}
    {table : EitanOS.FileTable} {root : ℕ} (hroot : EitanOS.findRoot table = some root) :
    EitanOS.resolvePath junk drive table p = EitanOS.resolveLoop drive table junk root cs := by
  have hhead : p.head? = some slash := by rw [h.eq_append, head?_joinPath]
  have hsplit : EitanOS.strSplit p slash = cs := by
    rw [h.eq]
    split_ifs with hcs
    · rw [hcs]
      rfl
    · exact EitanOS.strSplit_join fun c hc => h.component h₀ hc
  rw [EitanOS.resolvePath, if_pos hhead, hroot, hsplit]

theorem IsPath.resolvePath_parent (h : IsPath p cs) (h₀ : 0 ∉ p) {junk : EitanOS.Junk} {drive : EitanOS.Drive}
    {table : EitanOS.FileTable} {root : ℕ} (hroot : EitanOS.findRoot table = some root) :
    EitanOS.resolvePath junk drive table (joinPath cs.dropLast ++ [slash]) =
      EitanOS.resolveLoop drive table junk root cs.dropLast := by
  have hsplit : EitanOS.strSplit (joinPath cs.dropLast ++ [slash]) slash = cs.dropLast :=
    EitanOS.strSplit_join_slash fun _ hc => h.component h₀ (List.mem_of_mem_dropLast hc)
  rw [EitanOS.resolvePath, if_pos head?_joinPath, hroot, hsplit]

/-- **A string is a valid path** if it has components and is not too long. -/
theorem isValidPath_iff (h₀ : 0 ∉ p) :
    EitanOS.isValidPath p = true ↔ p.length ≤ 1001 ∧ ∃ cs, IsPath p cs := by
  constructor
  · intro h
    obtain ⟨hcomp, hp⟩ := EitanOS.validPath_components h
    have hl : p.length ≤ 1001 := by
      simp only [EitanOS.isValidPath, Bool.and_eq_true, decide_eq_true_eq] at h
      exact h.1.2
    refine ⟨hl, ?_⟩
    rcases hp with hp | ⟨hp, hne⟩
    · exact ⟨[], hp, List.forall_mem_nil _⟩
    · refine ⟨EitanOS.strSplit p slash, by rwa [if_neg hne], fun c hc => ?_⟩
      exact ⟨(hcomp c hc).ne_nil, (hcomp c hc).slash_notMem, (hcomp c hc).length_le⟩
  · rintro ⟨hl, cs, h⟩
    have hhead : p.head? = some slash := by
      rw [h.eq_append]
      exact head?_joinPath
    rw [EitanOS.isValidPath, decide_eq_true hhead, decide_eq_true hl, Bool.true_and, Bool.true_and,
      Bool.or_eq_true]
    by_cases hcs : cs = []
    · have hp := h.eq
      rw [if_pos hcs] at hp
      rw [hp]
      exact .inl rfl
    · have hok := EitanOS.componentsOk_join (fun c hc => h.component h₀ hc) hcs
      have hp := h.eq
      rw [if_neg hcs] at hp
      rw [hp]
      exact .inr hok

/-! ## The calls on a path -/

theorem forall₂_text {m₀ : Mem} {ps : List (ℕ × List UInt8)} (h : Parts m₀ m ps)
    (h₀ : ∀ x ∈ ps.map Prod.snd, 0 ∉ x) : List.Forall₂ (Text m) (addresses ps) (ps.map Prod.snd) := by
  rw [addresses, List.forall₂_map_left_iff, List.forall₂_map_right_iff, List.forall₂_same]
  exact fun x hx => .mk_look (h₀ _ (List.mem_map_of_mem hx)) (h.parts x hx).2

theorem exec_strSplit_text (h : Text m a s) (hs : s.length < 2 ^ 31) : ∃ ts m',
    exec (strSplit a slash) m = (some (ts, (words slash s).length), m') ∧
      List.Forall₂ (Text m') ts (words slash s) ∧ ∀ b < m.size, m'.look b = m.look b := by
  obtain ⟨ps, m', he, hP, hnames⟩ := exec_strSplit h (show slash ≠ 0 by decide) hs
  have hlen : ps.length = (words slash s).length := by rw [← hnames, List.length_map]
  refine ⟨addresses ps, m', by rw [he, hlen], ?_, fun b hb => hP.look_of_lt hb⟩
  rw [← hnames]
  refine forall₂_text hP fun x hx hz => ?_
  rw [hnames] at hx
  exact h.zero_notMem ((mem_words hx).2 hz)

theorem IsPath.exec_splitPath_text (hcs : IsPath p cs) (h : Text m a p) (hl : p.length ≤ 1001) :
    ∃ dirPath name m', exec (splitPath a) m = (some (dirPath, name), m') ∧
      Text m' dirPath (EitanOS.splitPath p).1 ∧ Text m' name (EitanOS.splitPath p).2 ∧
      ∀ b < m.size, m'.look b = m.look b := by
  have h₀ := h.zero_notMem
  rw [hcs.splitPath_eq]
  rw [hcs.eq_append] at h h₀ hl
  simp only [List.mem_append, List.mem_cons, not_or] at h₀
  refine ⟨_, _, _, exec_splitPath h hcs.slash_notMem_getLast hl, ?_, ?_, fun b hb => ?_⟩
  · have hdir : 0 ∉ joinPath cs.dropLast ++ [slash] := by
      rw [List.mem_append, List.mem_singleton, not_or]
      exact ⟨h₀.1, h₀.2.1⟩
    refine .mk_look hdir (r := []) ?_
    rw [Mem.look_push, if_pos Mem.size_push.symm]
  · refine .mk_look h₀.2.2 (r := []) ?_
    rw [Mem.look_push, if_neg (by simp), Mem.look_push_self]
  · rw [Mem.look_push, if_neg (by simp; omega), Mem.look_push, if_neg (by omega)]

/-- **The path functions agree.** For every string `p`, `is_valid_path` returns whether it is `/` or a
sequence of components behind slashes of at most 1001 bytes. For every such path, `str_split` returns its
components, and `split_path` returns two strings that are the path, the first up to its last slash; the
second is the last component, and `str_split` makes of the first the other components. So the lookup of the
parent walks all components but the last, of those that the lookup of the path walks. -/
theorem path_functions_agree (p : List UInt8) (hp : p.length < 2 ^ 64 - 1) (m : Mem) (a : Addr)
    (h : Text m a p) :
    (∃ valid, exec (isValidPath a) m = (some valid, m) ∧
      (valid = true ↔ p.length ≤ 1001 ∧ ∃ cs, IsPath p cs)) ∧
    ∀ cs, IsPath p cs → p.length ≤ 1001 →
      (∃ ts m', exec (strSplit a slash) m = (some (ts, cs.length), m') ∧ List.Forall₂ (Text m') ts cs ∧
        ∀ b < m.size, m'.look b = m.look b) ∧
      ∃ d name dirPath namePtr m', exec (splitPath a) m = (some (dirPath, namePtr), m') ∧
        Text m' dirPath d ∧ Text m' namePtr name ∧ (∀ b < m.size, m'.look b = m.look b) ∧
        d ++ name = p ∧ d.getLast? = some slash ∧ name = cs.getLast?.getD [] ∧
        (∃ ts m'', exec (strSplit dirPath slash) m' = (some (ts, cs.length - 1), m'') ∧
          List.Forall₂ (Text m'') ts cs.dropLast) ∧
        (cs ≠ [] → cs.dropLast <+: cs ∧ cs.dropLast ≠ cs) ∧
        ∀ junk drive table root, EitanOS.findRoot table = some root →
          EitanOS.resolvePath junk drive table p = EitanOS.resolveLoop drive table junk root cs ∧
          EitanOS.resolvePath junk drive table d = EitanOS.resolveLoop drive table junk root cs.dropLast := by
  have h₀ := h.zero_notMem
  refine ⟨⟨_, exec_isValidPath h hp, isValidPath_iff h₀⟩, fun cs hcs hl => ⟨?_, ?_⟩⟩
  · have hsplit := exec_strSplit_text h (by omega)
    rwa [hcs.words_eq] at hsplit
  · obtain ⟨dirPath, name, m', he, hd, hn, hbefore⟩ := hcs.exec_splitPath_text h hl
    rw [hcs.splitPath_eq] at hd hn
    have hlen := congrArg List.length hcs.eq_append
    simp only [List.length_append, List.length_cons] at hlen
    have hdl : (joinPath cs.dropLast ++ [slash]).length < 2 ^ 31 := by
      rw [List.length_append, List.length_singleton]
      omega
    obtain ⟨ts, m'', hsplit, hts, -⟩ := exec_strSplit_text hd hdl
    rw [hcs.words_parent] at hsplit hts
    rw [List.length_dropLast] at hsplit
    refine ⟨_, _, dirPath, name, m', he, hd, hn, hbefore, ?_, by simp, rfl, ⟨ts, m'', hsplit, hts⟩,
      fun hne => ⟨ List.dropLast_prefix cs, fun e => ?_⟩,
      fun _ _ _ _ hroot => ⟨hcs.resolvePath_eq h₀ hroot, hcs.resolvePath_parent h₀ hroot⟩⟩
    · rw [hcs.eq_append]
      simp
    · have hpos := List.length_pos_iff.mpr hne
      have hlast := congrArg List.length e
      rw [List.length_dropLast] at hlast
      omega

theorem path_functions_agree_example : ∃ d name dirPath namePtr m',
    exec (splitPath (.into (.block 0) 0)) ⟨[some [47, 97, 47, 98, 0]], fun _ _ => 7⟩ =
      (some (dirPath, namePtr), m') ∧ Text m' dirPath d ∧ Text m' namePtr name ∧ d ++ name = [47, 97, 47, 98] ∧
      name = [98] :=
  have h := path_functions_agree [47, 97, 47, 98] (by decide) ⟨[some [47, 97, 47, 98, 0]], fun _ _ => 7⟩
    (.into (.block 0) 0) (.mk_look (by decide) rfl)
  let ⟨d, name, dirPath, namePtr, m', he, hd, hn, _, hp, _, hname, _⟩ :=
    (h.2 [[97], [98]] ⟨rfl, by decide⟩ (by decide)).2
  ⟨d, name, dirPath, namePtr, m', he, hd, hn, hp, hname⟩

end Util
