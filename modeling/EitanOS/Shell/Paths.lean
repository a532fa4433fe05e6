import EitanOS.Disk.Paths
import EitanOS.Lib.Lexical
import EitanOS.Lib.Words
import EitanOS.Shell.Strings

/-!
# Paths of the shell

`parse_path` cuts a path into its parts, keeps up to 64 of them on a stack and builds the path anew, in
the memory it was read from.

* `exec_parsePart`, **`exec_splitLoop`**: the stack holds the parts that `capped` keeps.
* `exec_rebuild`: the path is built anew and every part is freed.
* **`exec_parsePath`**: what is left in the memory of the path.
* **`parse_path_canonical`**: the result is in normal form, valid and no longer than the path.
-/

namespace Shell

open Prog Objects Words Lexical
open EitanOS (slash isValidPath)

/-! ## The functions -/

/-- `"."`. -/
def dot : List UInt8 := [46]

/-- `".."`. -/
def dotdot : List UInt8 := [46, 46]

/-- `while (path[i] == '/') i++`. -/
def skipSlashes (path : Ptr) : ℕ → ℕ → Code Mem ℕ
  | 0, _ => failure
  | fuel + 1, i => do
    if (← load path i) = slash then skipSlashes path fuel (i + 1) else return i

/-- `while (path[i] != '/' && path[i] != '\0') i++`. -/
def endOfPart (path : Ptr) : ℕ → ℕ → Code Mem ℕ
  | 0, _ => failure
  | fuel + 1, i => do
    let c ← load path i
    if c ≠ slash ∧ c ≠ 0 then endOfPart path fuel (i + 1) else return i

/-- A part of the path: the stack after it. -/
def parsePart (path : Ptr) (stack : List Ptr) (start partLen : ℕ) : Code Mem (List Ptr) := do
  let part ← substr path start partLen
  if ← strcmp part (.lit dotdot) then
    match stack.getLast? with
    | some last => do
      free last
      free part
      return stack.dropLast
    | none => do
      free part
      return stack
  else if ← strcmp part (.lit dot) then do
    free part
    return stack
  else if stack.length < 64 then return stack ++ [part]
  else do
    free part
    return stack

/-- The first loop of `parse_path`, from `i` on. -/
def splitLoop (path : Ptr) : ℕ → ℕ → List Ptr → Code Mem (List Ptr)
  | 0, _, _ => failure
  | fuel + 1, i, stack => do
    if (← load path i) = 0 then return stack
    else do
      let start ← skipSlashes path (fuel + 1) i
      if (← load path start) = 0 then return stack
      else do
        let stop ← endOfPart path (fuel + 1) start
        let stack ← parsePart path stack start (stop - start)
        splitLoop path fuel stop stack

/-- The last loop of `parse_path`, for the parts that are left. -/
def rebuild (path : Ptr) : List Ptr → Code Mem PUnit
  | [] => return ⟨⟩
  | part :: stack => do
    let temp ← strConcat path part
    let temp₂ ← if stack ≠ [] then strConcat temp (.lit [slash]) else pure temp
    memcpy path temp₂ (toSize ((← strlen temp₂) + 1))
    free temp
    (if temp₂ ≠ temp then free temp₂ else pure ⟨⟩ : Code Mem PUnit)
    free part
    rebuild path stack

/-- `parse_path`. The loops read every character of the path once, so a bound of its length is never
used up. -/
def parsePath (path : Ptr) : Code Mem PUnit := do
  let len ← strlen path
  if len ≤ 1 then return ⟨⟩
  else do
    let stack ← splitLoop path (len.toNat + 1) 0 []
    memset path 0 (toSize len)
    store path 0 slash
    store path 1 0
    rebuild path stack

/-! ## The path as a text -/

/-- The path with the given parts. -/
def pathOf (cs : List (List UInt8)) : List UInt8 := if cs = [] then [slash] else glue slash cs

/-- The parts of a path that `parse_path` keeps. -/
def keptParts (s : List UInt8) : List (List UInt8) := capped dot dotdot 64 (words slash s)

variable {m m₀ : Mem} {p : Ptr} {b i n k : ℕ} {l r s w : List UInt8} {stack : List Ptr}
  {kept cs : List (List UInt8)}

theorem mem_keptParts {c : List UInt8} (h : c ∈ keptParts s) :
    c ≠ [] ∧ slash ∉ c ∧ c ⊆ s ∧ Plain dot dotdot c :=
  have hc := mem_capped h
  ⟨ne_nil_of_mem_words hc.1, (mem_words hc.1).1, (mem_words hc.1).2, hc.2⟩

theorem length_glue_keptParts (hs : s.head? = some slash) :
    (glue slash (keptParts s)).length ≤ s.length := by
  obtain ⟨t, rfl⟩ : ∃ t, s = slash :: t := by
    cases s with
    | nil => exact absurd hs nofun
    | cons a t => exact ⟨t, by rw [Option.some.inj hs]⟩
  have hwords : ((words slash (slash :: t)).map (·.length + 1)).sum ≤ t.length + 1 := by
    rw [words_cons_self]
    exact sum_words_le
  rw [length_glue]
  exact (sum_capped_le _).trans hwords

theorem pathOf_eq : pathOf cs = slash :: List.intercalate [slash] cs := by
  unfold pathOf
  split_ifs with hcs
  · rw [hcs]
    rfl
  · induction cs with
    | nil => exact absurd rfl hcs
    | cons c cs ih =>
      cases cs with
      | nil => simp
      | cons d cs =>
        rw [List.intercalate_cons_cons, glue_cons, ih (List.cons_ne_nil d cs), List.append_assoc,
          List.singleton_append]

theorem words_pathOf (h : ∀ c ∈ cs, c ≠ [] ∧ slash ∉ c) : words slash (pathOf cs) = cs := by
  unfold pathOf
  split_ifs with hcs
  · rw [hcs]
    rfl
  · exact words_glue h

theorem length_pathOf_keptParts (hs : s.head? = some slash) : (pathOf (keptParts s)).length ≤ s.length := by
  unfold pathOf
  split_ifs
  · cases s with
    | nil => exact absurd hs nofun
    | cons a t => simp
  · exact length_glue_keptParts hs

@[simp] theorem zero_ne_slash : (0 : UInt8) ≠ slash := by decide

/-! ## Scanning -/

theorem exec_skipSlashes (h : Str m p s) (hi : i ≤ s.length) (hf : s.length - i < n) :
    exec (skipSlashes p n i) m = (some (i + ((s.drop i).takeWhile (· = slash)).length), m) := by
  induction n generalizing i with
  | zero => omega
  | succ n ih =>
    rw [skipSlashes]
    rcases Nat.lt_or_eq_of_le hi with hlt | rfl
    · rw [exec_bind_some (h.load hlt), List.drop_eq_getElem_cons hlt]
      by_cases hc : s[i] = slash
      · rw [if_pos hc, ih (i := i + 1) hlt (by omega), List.takeWhile_cons_of_pos (by simpa using hc), List.length_cons]
        rw [Nat.add_assoc, Nat.add_comm 1]
      · rw [if_neg hc, List.takeWhile_cons_of_neg (by simpa using hc)]
        rfl
    · rw [exec_bind_some h.load_zero, if_neg (by decide), List.drop_length]
      rfl

theorem exec_endOfPart (h : Str m p s) (hi : i ≤ s.length) (hf : s.length - i < n) :
    exec (endOfPart p n i) m = (some (i + ((s.drop i).takeWhile (· ≠ slash)).length), m) := by
  induction n generalizing i with
  | zero => omega
  | succ n ih =>
    rw [endOfPart]
    rcases Nat.lt_or_eq_of_le hi with hlt | rfl
    · rw [exec_bind_some (h.load hlt), List.drop_eq_getElem_cons hlt]
      by_cases hc : s[i] = slash
      · rw [if_neg (by simp [hc]), List.takeWhile_cons_of_neg (by simpa using hc)]
        rfl
      · rw [if_pos ⟨hc, h.getElem_ne hlt⟩, ih (i := i + 1) hlt (by omega),
          List.takeWhile_cons_of_pos (by simpa using hc), List.length_cons]
        rw [Nat.add_assoc, Nat.add_comm 1]
    · rw [exec_bind_some h.load_zero, if_neg (by simp), List.drop_length]
      rfl

/-! ## Parts on the stack -/

variable {ps : List (ℕ × List UInt8)}

/-- **One part of the path**: the stack holds what `capStep` keeps. -/
theorem exec_parsePart {start len : ℕ} (h : Parts m₀ m ps) (hp : Str m p s) (hw : start + len ≤ s.length)
    (hs : s.length ≤ 1001) : ∃ ps' m', exec (parsePart p (pointers ps) start len) m =
      (some (pointers ps'), m') ∧ Parts m₀ m' ps' ∧
        ps'.map Prod.snd = capStep dot dotdot 64 (ps.map Prod.snd) ((s.drop start).take len) := by
  have hsub := exec_substr_str hp hw
  have h₀ : 0 ∉ (s.drop start).take len := fun h =>
    hp.zero_notMem (List.mem_of_mem_drop (List.mem_of_mem_take h))
  have hlen : ((s.drop start).take len).length ≤ 1001 := by
    rw [List.length_take, List.length_drop]
    omega
  generalize (s.drop start).take len = w at hsub h₀ hlen ⊢
  -- the new part is one more part until it is freed
  have hpush := h.push w
  have hstr : Str (m.push (w ++ [0])) (.block m.size) w := hpush.str (x := (m.size, w)) (by simp) h₀
  have hfree := hpush.free_last
  rw [parsePart, exec_bind_some hsub, exec_bind_some (exec_strcmp hstr (.lit (by decide)) hlen (by decide))]
  by_cases hdd : w = dotdot
  · rw [if_pos (by simpa using hdd), capStep, if_pos hdd]
    rcases List.eq_nil_or_concat ps with rfl | ⟨qs, y, rfl⟩
    · refine ⟨[], _, ?_, hfree.2, rfl⟩
      show exec (free (.block m.size) >>= fun _ => pure []) _ = _
      rw [exec_bind_some hfree.1]
      rfl
    · rw [List.concat_eq_append] at *
      rw [List.append_assoc] at hpush
      obtain ⟨hf₁, hP₁⟩ := hpush.free
      obtain ⟨hf₂, hP₂⟩ := hP₁.free_last
      refine ⟨qs, _, ?_, hP₂, by simp⟩
      have hlast : (pointers (qs ++ [y])).getLast? = some (.block y.1) := by simp [pointers]
      have hdrop : (pointers (qs ++ [y])).dropLast = pointers qs := by simp [pointers]
      rw [hlast, hdrop]
      show exec (free (.block y.1) >>= fun _ => free (.block m.size) >>= fun _ => pure (pointers qs)) _ = _
      rw [exec_bind_some hf₁, exec_bind_some hf₂]
      rfl
  · rw [if_neg (by simpa using hdd), exec_bind_some (exec_strcmp hstr (.lit (by decide)) hlen (by decide)),
      capStep, if_neg hdd]
    by_cases hd : w = dot
    · rw [if_pos (by simpa using hd), if_pos hd]
      refine ⟨ps, _, ?_, hfree.2, rfl⟩
      rw [exec_bind_some hfree.1]
      rfl
    · rw [if_neg (by simpa using hd), if_neg hd]
      have hlp : (pointers ps).length = (ps.map Prod.snd).length := by simp [pointers]
      rw [hlp]
      split_ifs
      · refine ⟨ps ++ [(m.size, w)], _, ?_, hpush, by simp⟩
        simp [pointers]
      · refine ⟨ps, _, ?_, hfree.2, rfl⟩
        rw [exec_bind_some hfree.1]
        rfl

/-- **The first loop of `parse_path`**: from `i` on, the parts are taken one by one. -/
theorem exec_splitLoop {fuel : ℕ} (h : Parts m₀ m ps) (hb : b < m₀.size) (hp : Str m₀ (.block b) s)
    (hs : s.length ≤ 1001) (hi : i ≤ s.length) (hf : s.length - i < fuel) :
    ∃ ps' m', exec (splitLoop (.block b) fuel i (pointers ps)) m = (some (pointers ps'), m') ∧
      Parts m₀ m' ps' ∧
      ps'.map Prod.snd = (words slash (s.drop i)).foldl (capStep dot dotdot 64) (ps.map Prod.snd) := by
  induction fuel generalizing i m ps with
  | zero => omega
  | succ fuel ih =>
    have hpm : Str m (.block b) s := hp.congr (h.look_of_lt hb)
    rw [splitLoop]
    rcases Nat.lt_or_eq_of_le hi with hlt | rfl
    · rw [exec_bind_some (hpm.load hlt), if_neg (hpm.getElem_ne hlt),
        exec_bind_some (exec_skipSlashes hpm hi (by omega))]
      -- the part starts at `j`
      obtain ⟨j, hj⟩ : ∃ j, j = i + ((s.drop i).takeWhile (· = slash)).length := ⟨_, rfl⟩
      rw [← hj]
      rcases next_word hi hj with ⟨rfl, hwords⟩ | ⟨hlt', n, hn, hn₀, hns, hwords⟩
      · refine ⟨ps, m, ?_, h, by rw [hwords]; rfl⟩
        rw [exec_bind_some hpm.load_zero, if_pos rfl]
        rfl
      · rw [exec_bind_some (hpm.load hlt'), if_neg (hpm.getElem_ne hlt'),
          exec_bind_some (exec_endOfPart hpm hlt'.le (by omega)), Nat.add_sub_cancel_left, ← hn, hwords,
          List.foldl_cons]
        obtain ⟨ps₁, m₁, he, hP, hk⟩ := exec_parsePart h hpm hns hs
        rw [exec_bind_some he, ← hk]
        exact ih hP hns (by omega)
    · refine ⟨ps, m, ?_, h, by simp⟩
      rw [exec_bind_some hpm.load_zero, if_pos rfl]
      rfl

/-! ## Building the path anew -/

theorem overwrite_zeros {t u : List UInt8} (h : u.length ≤ t.length) (hk : t.length + 1 ≤ u.length + k) :
    (t ++ [0]).take (t.length + 1) ++ (u ++ (List.replicate k 0 ++ r)).drop (t.length + 1) =
      t ++ (List.replicate (u.length + k - t.length) 0 ++ r) := by
  have hzeros : u.length + k - t.length = 1 + (u.length + k - (t.length + 1)) := by omega
  rw [List.take_of_length_le (by simp), List.drop_append, List.drop_eq_nil_of_le (by omega), List.nil_append,
    List.drop_append_of_le_length (by simp; omega), List.drop_replicate, hzeros, List.replicate_add,
    show k - (t.length + 1 - u.length) = u.length + k - (t.length + 1) by omega]
  simp

theorem exec_memcpy_parts {a : ℕ} {t u : List UInt8} (f : PUnit → Code Mem PUnit) (h : Parts m₀ m ps)
    (ha : (a, t) ∈ ps) (hb : m₀.look b = some (u ++ (List.replicate k 0 ++ r))) (h₀ : 0 ∉ t)
    (hu : u.length ≤ t.length) (hk : t.length + 1 ≤ u.length + k) (hl : t.length ≤ 1001) :
    exec (strlen (.block a) >>= fun n => memcpy (.block b) (.block a) (toSize (n + 1)) >>= f) m =
      exec (f ⟨⟩) (m.put b (t ++ (List.replicate (u.length + k - t.length) 0 ++ r))) := by
  have hlt := Mem.lt_size hb
  obtain ⟨hle, hlook⟩ := h.parts _ ha
  have hsize : toSize ((t.length : ℤ) + 1) = t.length + 1 := by
    exact toSize_succ (by omega)
  have hne : Ptr.block a ≠ .block b := fun e => absurd hle (by rw [Ptr.block.inj e]; omega)
  rw [exec_bind_some (exec_strlen (.mk_look h₀ hlook) hl), hsize, exec_bind_some (exec_memcpy
    (p := .block a) ((h.look_of_lt hlt).trans hb) hlook hne (by simp; omega) (by simp)),
    overwrite_zeros hu hk]

/-- **One part** is put behind what is already there, and freed. -/
theorem exec_rebuild_cons {x : ℕ × List UInt8} {u t : List UInt8} (h : Parts m₀ m (x :: ps))
    (hb : m₀.look b = some (u ++ (List.replicate k 0 ++ r))) (hu : 0 ∉ u) (hx : 0 ∉ x.2)
    (ht : t = u ++ x.2 ++ if ps = [] then [] else [slash]) (hk : t.length + 1 ≤ u.length + k)
    (hl : t.length ≤ 1001) :
    ∃ m', exec (rebuild (.block b) (pointers (x :: ps))) m = exec (rebuild (.block b) (pointers ps)) m' ∧
      Parts (m₀.put b (t ++ (List.replicate (u.length + k - t.length) 0 ++ r))) m' ps := by
  have hlt := Mem.lt_size hb
  have hul : u.length ≤ t.length := by
    rw [ht, List.append_assoc, List.length_append]
    omega
  have hxl : u.length + x.2.length ≤ t.length := by
    rw [ht, List.length_append, List.length_append]
    omega
  have hux : (0 : UInt8) ∉ u ++ x.2 := by
    rw [List.mem_append, not_or]
    exact ⟨hu, hx⟩
  have hpath : Str m (.block b) u := by
    obtain ⟨j, rfl⟩ : ∃ j, k = j + 1 := ⟨k - 1, by omega⟩
    exact .mk_look hu ((h.look_of_lt hlt).trans hb)
  have hP₁ : Parts m₀ (m.push (u ++ x.2 ++ [0])) (x :: (ps ++ [(m.size, u ++ x.2)])) := h.push (u ++ x.2)
  have hcat := exec_strConcat hpath (h.str List.mem_cons_self hx) (by omega) (by omega)
  rw [pointers, List.map_cons, rebuild, exec_bind_some hcat]
  by_cases hps : ps = []
  · -- the string made of the last part is the result
    rw [if_pos hps, List.append_nil] at ht
    subst hps ht
    replace hP₁ : Parts m₀ (m.push (u ++ x.2 ++ [0])) ([x] ++ [(m.size, u ++ x.2)]) := hP₁
    obtain ⟨hf₁, hP₂⟩ := (hP₁.put hlt (u ++ x.2 ++ (List.replicate (u.length + k - (u ++ x.2).length) 0 ++
      r))).free_last
    obtain ⟨hf₂, hP₃⟩ := hP₂.free_head
    refine ⟨_, ?_, hP₃⟩
    simp only [List.map_nil, ne_eq, not_true_eq_false, if_false, pure_bind]
    rw [exec_memcpy_parts _ hP₁ (by simp) hb hux hul hk hl, exec_bind_some hf₁, exec_bind_some hf₂]
    rfl
  · rw [if_neg hps] at ht
    have htemp : Str (m.push (u ++ x.2 ++ [0])) (.block m.size) (u ++ x.2) :=
      hP₁.str (x := (m.size, u ++ x.2)) (by simp) hux
    have hcat₂ := exec_strConcat htemp (.lit (s := [slash]) (by decide)) (by simp; omega) (by simp)
    have ht₀ : 0 ∉ t := by
      rw [ht, List.mem_append, not_or]
      exact ⟨hux, by decide⟩
    have hP₂ := hP₁.push t
    rw [← ht] at hcat₂
    simp only [Mem.size_push] at hcat₂ hP₂
    have hne : ps.map (fun y => Ptr.block y.1) ≠ [] := by simpa using hps
    have hnew : Ptr.block (m.size + 1) ≠ .block m.size := by simp
    have hP₃ := hP₂.put hlt (t ++ (List.replicate (u.length + k - t.length) 0 ++ r))
    have hlist : x :: (ps ++ [(m.size, u ++ x.2)]) ++ [(m.size + 1, t)] =
        (x :: ps) ++ (m.size, u ++ x.2) :: [(m.size + 1, t)] := by simp
    obtain ⟨hf₁, hP₄⟩ := (hlist ▸ hP₃).free
    obtain ⟨hf₂, hP₅⟩ := hP₄.free_last
    obtain ⟨hf₃, hP₆⟩ := hP₅.free_head
    refine ⟨_, ?_, hP₆⟩
    rw [if_pos hne, exec_bind_some hcat₂, exec_memcpy_parts _ hP₂ (by simp) hb ht₀ hul hk hl,
      exec_bind_some hf₁, if_pos hnew, exec_bind_some hf₂, exec_bind_some hf₃]
    rfl

/-- **The last loop of `parse_path`**: the parts are put behind what is already there, and freed. -/
theorem exec_rebuild {v : List UInt8} (h : Parts m₀ m ps)
    (hb : m₀.look b = some (v ++ [slash] ++ (List.replicate k 0 ++ r))) (hv : 0 ∉ v)
    (hps : ∀ x ∈ ps, 0 ∉ x.2 ∧ x.2 ≠ []) (hne : ps ≠ []) (hk : (glue slash (ps.map Prod.snd)).length ≤ k)
    (hl : v.length + (glue slash (ps.map Prod.snd)).length ≤ 1001) :
    ∃ m', exec (rebuild (.block b) (pointers ps)) m = (some ⟨⟩, m') ∧ ∀ c, m'.look c =
      if c = b then some (v ++ glue slash (ps.map Prod.snd) ++
        (List.replicate (k + 1 - (glue slash (ps.map Prod.snd)).length) 0 ++ r)) else m₀.look c := by
  induction ps generalizing m m₀ v k with
  | nil => exact absurd rfl hne
  | cons x ps ih =>
    rw [List.forall_mem_cons] at hps
    obtain ⟨⟨hx₀, -⟩, hps⟩ := hps
    rw [List.map_cons, glue_cons, List.length_cons, List.length_append] at hk hl ⊢
    have hlt := Mem.lt_size hb
    have hu : (0 : UInt8) ∉ v ++ [slash] := by
      rw [List.mem_append, not_or]
      exact ⟨hv, by decide⟩
    cases ps with
    | nil =>
      obtain ⟨m₁, he, hP⟩ := exec_rebuild_cons h hb hu hx₀ rfl (by simp; omega) (by simp; omega)
      have hzeros : (v ++ [slash]).length + k - (v ++ [slash] ++ x.2).length = k - x.2.length := by
        simp only [List.length_append, List.length_singleton]
        omega
      rw [if_pos rfl, List.append_nil, hzeros] at hP
      refine ⟨m₁, he, fun c => ?_⟩
      rw [hP.rest c (by simp), Mem.look_put hlt]
      simp
    | cons y ps =>
      have hy : 2 ≤ (glue slash ((y :: ps).map Prod.snd)).length := by
        have := List.length_pos_iff.mpr (hps y List.mem_cons_self).2
        rw [List.map_cons, glue_cons, List.length_cons, List.length_append]
        omega
      obtain ⟨m₁, he, hP⟩ := exec_rebuild_cons h hb hu hx₀ rfl (by simp; omega) (by simp; omega)
      obtain ⟨j, hj⟩ : ∃ j, j = (v ++ [slash]).length + k - (v ++ [slash] ++ x.2 ++ [slash]).length :=
        ⟨_, rfl⟩
      have hjk : j + x.2.length + 1 = k := by
        rw [hj]
        simp only [List.length_append, List.length_singleton]
        omega
      rw [if_neg (List.cons_ne_nil y ps), ← hj] at hP
      obtain ⟨m₂, he₂, hlook⟩ := ih (v := v ++ slash :: x.2) (k := j) hP
        (by rw [Mem.look_put_self hlt]; simp) (by simp [hv, hx₀]) hps (List.cons_ne_nil y ps)
        (by omega) (by rw [List.length_append, List.length_cons]; omega)
      refine ⟨m₂, he.trans he₂, fun c => ?_⟩
      rw [hlook, Mem.look_put hlt, show k + 1 = j + 1 + (x.2.length + 1) by omega,
        show x.2.length + (glue slash ((y :: ps).map Prod.snd)).length + 1 =
          (glue slash ((y :: ps).map Prod.snd)).length + (x.2.length + 1) by omega, Nat.add_sub_add_right]
      split_ifs
      · simp
      · rfl

/-! ## The whole of `parse_path` -/

/-- **`parse_path`** leaves the path of the parts it keeps, with zeros behind it up to the old end, and
nothing else changes. -/
theorem exec_parsePath (hb : m.look b = some (s ++ 0 :: r)) (h₀ : 0 ∉ s) (hs : s.head? = some slash)
    (hl : s.length ≤ 1001) : ∃ m', exec (parsePath (.block b)) m = (some ⟨⟩, m') ∧ ∀ c, m'.look c =
      if c = b then some (pathOf (keptParts s) ++
        (List.replicate (s.length + 1 - (pathOf (keptParts s)).length) 0 ++ r)) else m.look c := by
  have hlt := Mem.lt_size hb
  have hstr : Str m (.block b) s := .mk_look h₀ hb
  rw [parsePath, exec_bind_some (exec_strlen hstr hl)]
  by_cases hlen : s.length ≤ 1
  · -- the path is `/`
    obtain rfl : s = [slash] := by
      cases s with
      | nil => exact absurd hs nofun
      | cons a t =>
        have ht : t = [] := List.length_eq_zero_iff.mp (by simpa using hlen)
        rw [Option.some.inj hs, ht]
    have hkept : pathOf (keptParts [slash]) = [slash] := by decide
    rw [if_pos (by exact_mod_cast hlen), hkept]
    refine ⟨m, rfl, fun c => ?_⟩
    split_ifs with hc
    · rw [hc, hb]
      rfl
    · rfl
  · obtain ⟨n, hn⟩ : ∃ n, s.length = n + 2 := ⟨s.length - 2, by omega⟩
    have hsize : toSize (s.length : ℤ) = s.length := toSize_natCast (by omega)
    obtain ⟨ps, m₁, hsplit, hP, hkept⟩ := exec_splitLoop (Parts.refl m) hlt hstr hl (Nat.zero_le _)
      (Nat.lt_succ_self _)
    have hsplit : exec (splitLoop (.block b) (s.length + 1) 0 []) m = (some (pointers ps), m₁) := hsplit
    rw [List.drop_zero] at hkept
    have hkept : ps.map Prod.snd = keptParts s := hkept
    have hlt₁ : b < m₁.size := hlt.trans_le hP.size_le
    have hb₁ : m₁.look b = some (s ++ 0 :: r) := (hP.look_of_lt hlt).trans hb
    -- the memory of the path when only the first slash is in place
    obtain ⟨l, hl'⟩ : ∃ l, l = [] ++ [slash] ++ (List.replicate s.length 0 ++ r) := ⟨_, rfl⟩
    have hclear : (((List.replicate s.length 0 ++ (s ++ 0 :: r).drop s.length).set 0 slash).set 1 0) = l := by
      rw [hl', List.drop_left, hn]
      show slash :: 0 :: (List.replicate n 0 ++ 0 :: r) = slash :: 0 :: (List.replicate (n + 1) 0 ++ r)
      rw [List.replicate_succ', List.append_assoc, List.singleton_append]
    have hput : ∀ l, (m₁.put b l).look b = some l := fun l => Mem.look_put_self hlt₁
    rw [if_neg (by exact_mod_cast hlen), Int.toNat_natCast, exec_bind_some hsplit, hsize,
      exec_bind_some (exec_memset hb₁ (by simp)),
      exec_bind_some (exec_store (hput _) (by simp)), Mem.put_put,
      exec_bind_some (exec_store (hput _) (by simp; omega)), Mem.put_put, hclear]
    have hP₂ := hP.put hlt l
    have hb₂ : (m.put b l).look b = some l := Mem.look_put_self hlt
    by_cases hps : ps = []
    · subst hps
      rw [← hkept]
      refine ⟨_, rfl, fun c => ?_⟩
      rw [hP₂.rest c (by simp), Mem.look_put hlt, hl']
      rfl
    · have hne : keptParts s ≠ [] := by
        rw [← hkept]
        simpa using hps
      have hzero : ∀ x ∈ ps, 0 ∉ x.2 ∧ x.2 ≠ [] := fun x hx => by
        obtain ⟨h₁, -, h₂, -⟩ := mem_keptParts (hkept ▸ List.mem_map_of_mem hx)
        exact ⟨fun h => h₀ (h₂ h), h₁⟩
      have hroom := length_glue_keptParts hs
      rw [← hkept] at hroom
      obtain ⟨m₂, he, hlook⟩ := exec_rebuild hP₂ (hb₂.trans (congrArg some hl')) (by simp) hzero hps hroom
        (by simp; omega)
      refine ⟨m₂, he, fun c => ?_⟩
      rw [hlook, pathOf, if_neg hne, Mem.look_put hlt, ← hkept]
      split_ifs
      · simp
      · rfl

/-! ## Normal form -/

/-- The parts of a path in normal form. -/
structure Normal (cs : List (List UInt8)) : Prop where
  length_le : cs.length ≤ 64
  parts : ∀ c ∈ cs, c ≠ [] ∧ slash ∉ c ∧ 0 ∉ c ∧ Plain dot dotdot c

theorem normal_keptParts (h₀ : 0 ∉ s) : Normal (keptParts s) := by
  refine ⟨length_capped_le, fun c hc => ?_⟩
  obtain ⟨h₁, h₂, h₃, h₄⟩ := mem_keptParts hc
  exact ⟨h₁, h₂, fun h => h₀ (h₃ h), h₄⟩

namespace Normal

theorem zero_notMem_pathOf (h : Normal cs) : 0 ∉ pathOf cs := by
  unfold pathOf
  split_ifs
  · decide
  · intro h₀
    obtain ⟨c, hc, hm⟩ := List.mem_flatMap.mp h₀
    rcases List.mem_cons.mp hm with e | hm
    · exact zero_ne_slash e
    · exact (h.parts c hc).2.2.1 hm

theorem words_pathOf (h : Normal cs) : words slash (pathOf cs) = cs :=
  Shell.words_pathOf fun c hc => ⟨(h.parts c hc).1, (h.parts c hc).2.1⟩

/-- **Nothing more is left out** of a path in normal form. -/
theorem keptParts_pathOf (h : Normal cs) : keptParts (pathOf cs) = cs := by
  rw [keptParts, h.words_pathOf]
  exact foldl_capStep_plain (fun c hc => (h.parts c hc).2.2.2) (by simpa using h.length_le)

theorem head_pathOf (cs : List (List UInt8)) : (pathOf cs).head? = some slash := by
  unfold pathOf
  split_ifs with hcs
  · rfl
  · cases cs with
    | nil => exact absurd rfl hcs
    | cons c cs => rfl

theorem isValidPath_pathOf (h : Normal cs) (hl : (pathOf cs).length ≤ 1001) (hc : ∀ c ∈ cs, c.length ≤ 60) :
    isValidPath (pathOf cs) = true := by
  have hcomp : ∀ c ∈ cs, EitanOS.Component c := fun c hmem => by
    obtain ⟨h₁, h₂, h₃, -⟩ := h.parts c hmem
    exact ⟨h₁, h₂, h₃, hc c hmem⟩
  have hhead := head_pathOf cs
  unfold isValidPath
  rw [decide_eq_true hhead, decide_eq_true hl]
  unfold pathOf
  split_ifs with hcs
  · rfl
  · rw [Bool.true_and, Bool.true_and, Bool.or_eq_true]
    exact .inr (EitanOS.componentsOk_join hcomp hcs)

end Normal

/-- **Normalised paths are canonical and fit.** `parse_path` on a block that holds an absolute path of at
most 1000 bytes and nothing else returns, so it has stayed inside the block and has freed no block twice.
What it leaves is a path in normal form that is no longer, valid if its components are short enough, and
left as it is by a second call. The other blocks are as before, so the parts it allocated are freed. -/
theorem parse_path_canonical (s : List UInt8) (h₀ : 0 ∉ s) (hs : s.head? = some slash)
    (hl : s.length ≤ 1000) (m : Mem) (b : ℕ) (hb : m.look b = some (s ++ [0])) :
    ∃ m' t, exec (parsePath (.block b)) m = (some ⟨⟩, m') ∧
      m'.look b = some (t ++ List.replicate (s.length + 1 - t.length) 0) ∧ t.length ≤ s.length ∧ 0 ∉ t ∧
      (t = [slash] ∨ ∃ cs, cs ≠ [] ∧ t = glue slash cs ∧
        ∀ c ∈ cs, c ≠ [] ∧ slash ∉ c ∧ c ≠ dot ∧ c ≠ dotdot) ∧
      ((∀ c ∈ words slash t, c.length ≤ 60) → isValidPath t = true) ∧
      (∃ m'', exec (parsePath (.block b)) m' = (some ⟨⟩, m'') ∧ ∀ c, m''.look c = m'.look c) ∧
      ∀ c, c ≠ b → m'.look c = m.look c := by
  have hn := normal_keptParts h₀
  have ht := length_pathOf_keptParts hs
  obtain ⟨m', he, hlook⟩ := exec_parsePath hb h₀ hs (by omega)
  have hb' : m'.look b = some (pathOf (keptParts s) ++
      List.replicate (s.length + 1 - (pathOf (keptParts s)).length) 0) := by
    rw [hlook, if_pos rfl, List.append_nil]
  refine ⟨m', pathOf (keptParts s), he, hb', ht, hn.zero_notMem_pathOf, ?_, fun hc => ?_, ?_, fun c hc => ?_⟩
  · unfold pathOf
    split_ifs with hk
    · exact .inl rfl
    · refine .inr ⟨_, hk, rfl, fun c hc => ?_⟩
      obtain ⟨h₁, h₂, -, h₃⟩ := hn.parts c hc
      exact ⟨h₁, h₂, h₃⟩
  · rw [hn.words_pathOf] at hc
    exact hn.isValidPath_pathOf (by omega) hc
  · -- the second call finds the same parts
    obtain ⟨j, hj⟩ : ∃ j, s.length + 1 - (pathOf (keptParts s)).length = j + 1 :=
      Nat.exists_eq_succ_of_ne_zero (by omega)
    rw [hj, List.replicate_succ] at hb'
    obtain ⟨m'', he', hlook'⟩ := exec_parsePath hb' hn.zero_notMem_pathOf (Normal.head_pathOf _) (by omega)
    rw [hn.keptParts_pathOf, Nat.add_sub_cancel_left] at hlook'
    refine ⟨m'', he', fun c => ?_⟩
    rw [hlook']
    split_ifs with hc
    · rw [hc, hb']
      rfl
    · rfl
  · rw [hlook, if_neg hc]

theorem parse_path_canonical_example : ∃ m' t, exec (parsePath (.block 0))
      ⟨[some [47, 97, 47, 46, 46, 47, 98, 47, 47, 99, 0]], fun _ _ => 7⟩ = (some ⟨⟩, m') ∧
      m'.look 0 = some (t ++ List.replicate (11 - t.length) 0) ∧ t.length ≤ 10 :=
  have h := parse_path_canonical [47, 97, 47, 46, 46, 47, 98, 47, 47, 99] (by decide) rfl (by decide)
    ⟨[some [47, 97, 47, 46, 46, 47, 98, 47, 47, 99, 0]], fun _ _ => 7⟩ 0 rfl
  let ⟨m', t, he, hb, hl, _⟩ := h
  ⟨m', t, he, hb, hl⟩

example : pathOf (keptParts [47, 97, 47, 46, 46, 47, 98, 47, 47, 99]) = [47, 98, 47, 99] := by decide

end Shell
