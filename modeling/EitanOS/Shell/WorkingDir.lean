import EitanOS.Shell.Paths

/-!
# The working directory

`cd` joins its argument with `working_dir`, normalises the path and copies it back, without a look at
its length.

* `AtDir m dir`: the working directory is the path of the names `dir`, in normal form.
* `nextDir`, `dirAfter`: the names an argument and a sequence of commands lead to.
* **`exec_joinWorkingDir`**, **`exec_normalise`**: the path an argument stands for.
* **`exec_cmdCd`**, `exec_cmdCd_none`: the path is copied where it fits, and runs over the 128 bytes of
  `working_dir` where it does not.
* **`normalised_is_lexical_iff`**, **`working_dir_fits_iff`**: for which inputs the path is the one that
  is meant, and for which commands it stays inside `working_dir`.
-/

namespace Shell

open Prog Objects Words Lexical
open EitanOS (slash)

/-! ## The functions -/

/-- `working_dir`, a block of 128 bytes. -/
def workingDir : Ptr := .block 0

/-- The memory of the shell at its start. -/
def start (junk : ℕ → ℕ → UInt8) : Mem := ⟨[some (slash :: List.replicate 127 0)], junk⟩

/-- `join_working_dir`. -/
def joinWorkingDir (path : Ptr) : Code Mem Ptr := do
  if (← load path 0) = slash then strdup path else strConcats [workingDir, .lit [slash], path]

/-- `join_working_dir` and `parse_path`, as every command with a path calls them. -/
def normalise (arg : Ptr) : Code Mem Ptr := do
  let path ← joinWorkingDir arg
  parsePath path
  return path

/-- `cmd_cd`: what it prints. The length of the new directory is measured and never used. -/
def cmdCd : List Ptr → Code Mem (Option String)
  | [arg] => do
    let path ← joinWorkingDir arg
    parsePath path
    memcpy workingDir path (toSize ((← strlen path) + 1))
    let _ ← strlen workingDir
    free path
    return none
  | _ => return some "Usage: cd <path>\n"

/-- A sequence of `cd` commands. The arguments are strings that `cmd_cd` only reads. -/
def cds (commands : List (List (List UInt8))) : Code Mem PUnit :=
  commands.forM fun args => do let _ ← cmdCd (args.map .lit)

variable {m m₀ : Mem} {p : Ptr} {b : ℕ} {a s u wd : List UInt8} {dir : List (List UInt8)}
  {args : List (List UInt8)} {commands : List (List (List UInt8))}

/-! ## Joining -/

theorem exec_foldlM_strConcat {ss : List (Ptr × List UInt8)} (h : Parts m₀ m [(b, u)]) (hu : 0 ∉ u)
    (hs : ∀ x ∈ ss, Str m₀ x.1 x.2) (hl : (u ++ (ss.map Prod.snd).flatten).length ≤ 1001) :
    ∃ c m', exec ((ss.map Prod.fst).foldlM (fun result s => do
        let temp ← strConcat result s
        free result
        return temp) (.block b)) m = (some (.block c), m') ∧
      Parts m₀ m' [(c, u ++ (ss.map Prod.snd).flatten)] := by
  induction ss generalizing m b u with
  | nil => exact ⟨b, m, rfl, by simpa using h⟩
  | cons x ss ih =>
    rw [List.forall_mem_cons] at hs
    simp only [List.map_cons, List.flatten_cons, ← List.append_assoc] at hl ⊢
    have hlen : u.length + x.2.length ≤ 1001 := by
      rw [List.length_append, List.length_append] at hl
      omega
    have hx := h.str_before hs.1
    have hb : Str m (.block b) u := h.str (x := (b, u)) (List.mem_singleton.mpr rfl) hu
    have hcat := exec_strConcat hb hx (by omega) (by omega)
    obtain ⟨hfree, hP⟩ := (h.push (u ++ x.2)).free_head
    have hux : 0 ∉ u ++ x.2 := by
      rw [List.mem_append, not_or]
      exact ⟨hu, hx.zero_notMem⟩
    obtain ⟨c, m', he, hP'⟩ := ih hP hux hs.2 hl
    refine ⟨c, m', ?_, hP'⟩
    rw [List.foldlM_cons, bind_assoc, exec_bind_some hcat, bind_assoc, exec_bind_some hfree,
      pure_bind]
    exact he

/-- **`str_concats`** puts the strings into one new block. -/
theorem exec_strConcats (x : Ptr × List UInt8) (ss : List (Ptr × List UInt8)) (hx : Str m x.1 x.2)
    (hs : ∀ y ∈ ss, Str m y.1 y.2) (hl : (x.2 ++ (ss.map Prod.snd).flatten).length ≤ 1001) :
    ∃ c m', exec (strConcats (x.1 :: ss.map Prod.fst)) m = (some (.block c), m') ∧
      Parts m m' [(c, x.2 ++ (ss.map Prod.snd).flatten)] := by
  have hlen : x.2.length ≤ 1001 := by
    rw [List.length_append] at hl
    omega
  obtain ⟨c, m', he, hP⟩ := exec_foldlM_strConcat ((Parts.refl m).push x.2) hx.zero_notMem hs hl
  refine ⟨c, m', ?_, hP⟩
  rw [strConcats, exec_bind_some (exec_strdup hx hlen)]
  exact he

/-- The path that an argument stands for, before it is normalised. -/
def joined (wd a : List UInt8) : List UInt8 := if a.head? = some slash then a else wd ++ slash :: a

theorem length_joined_le (wd a : List UInt8) : (joined wd a).length ≤ wd.length + a.length + 1 := by
  unfold joined
  split_ifs
  · omega
  · rw [List.length_append, List.length_cons]
    omega

theorem zero_notMem_joined (hw : 0 ∉ wd) (ha : 0 ∉ a) : 0 ∉ joined wd a := by
  unfold joined
  split_ifs
  · exact ha
  · simp [hw, ha]

theorem head_joined (hw : wd.head? = some slash) : (joined wd a).head? = some slash := by
  unfold joined
  split_ifs with h
  · exact h
  · rw [List.head?_append, hw]
    rfl

/-- **`join_working_dir`.** -/
theorem exec_joinWorkingDir (hw : Str m workingDir wd) (hp : Str m p a) (hwl : wd.length ≤ 127)
    (ha : a.length ≤ 125) : ∃ c m', exec (joinWorkingDir p) m = (some (.block c), m') ∧
      Parts m m' [(c, joined wd a)] := by
  have hload : exec (load p 0) m = (some (a.head?.getD 0), m) := by
    cases a with
    | nil => exact hp.load_zero
    | cons v a => exact hp.load (Nat.zero_lt_succ _)
  have hhead : a.head?.getD 0 = slash ↔ a.head? = some slash := by
    cases a with
    | nil => exact ⟨fun e => absurd e zero_ne_slash, nofun⟩
    | cons v a => simp
  rw [joinWorkingDir, exec_bind_some hload, joined]
  by_cases h : a.head? = some slash
  · rw [if_pos (hhead.mpr h), if_pos h]
    exact ⟨m.size, _, exec_strdup hp (by omega), (Parts.refl m).push a⟩
  · have hcat := exec_strConcats (workingDir, wd) [(.lit [slash], [slash]), (p, a)] hw ?_ ?_
    · rw [if_neg fun e => h (hhead.mp e), if_neg h]
      simpa using hcat
    · simpa using ⟨Str.lit (by decide), hp⟩
    · simp
      omega

/-- **The path an argument stands for**, with zeros behind it, in a block of its own. -/
theorem exec_normalise (hw : Str m workingDir wd) (hs : wd.head? = some slash) (hp : Str m p a)
    (hwl : wd.length ≤ 127) (ha : a.length ≤ 125) : ∃ c k m', m.size ≤ c ∧
      exec (normalise p) m = (some (.block c), m') ∧ ∀ d, m'.look d = if d = c then
        some (pathOf (keptParts (joined wd a)) ++ 0 :: List.replicate k 0) else m.look d := by
  have hlen := length_joined_le wd a
  obtain ⟨c, m₁, he, hP⟩ := exec_joinWorkingDir hw hp hwl ha
  obtain ⟨hc, hlook⟩ := hP.parts _ (List.mem_singleton.mpr rfl)
  obtain ⟨m₂, he₂, hlook₂⟩ := exec_parsePath (s := joined wd a) (r := []) hlook (zero_notMem_joined hw.zero_notMem hp.zero_notMem)
    (head_joined hs) (by omega)
  have hle := length_pathOf_keptParts (head_joined hs : (joined wd a).head? = some slash)
  obtain ⟨k, hk⟩ : ∃ k, (joined wd a).length + 1 - (pathOf (keptParts (joined wd a))).length = k + 1 :=
    Nat.exists_eq_succ_of_ne_zero (by omega)
  refine ⟨c, k, m₂, hc, ?_, fun d => ?_⟩
  · rw [normalise, exec_bind_some he, exec_bind_some he₂]
    rfl
  · rw [hlook₂, hk, List.append_nil, List.replicate_succ]
    split_ifs with hd
    · rfl
    · exact hP.rest d (by simpa using hd)

/-! ## The directory as a list of names -/

/-- The directory that an argument leads to. -/
def nextDir (dir : List (List UInt8)) (a : List UInt8) : List (List UInt8) :=
  if a.head? = some slash then capped dot dotdot 64 (words slash a)
  else (words slash a).foldl (capStep dot dotdot 64) dir

/-- The directory that a command leads to. -/
def cdDir (dir : List (List UInt8)) : List (List UInt8) → List (List UInt8)
  | [a] => nextDir dir a
  | _ => dir

/-- The directory that a sequence of commands leads to. -/
def dirAfter (commands : List (List (List UInt8))) : List (List UInt8) := commands.foldl cdDir []

/-- The names take at most 127 bytes, with a slash before each. -/
def Fits (dir : List (List UInt8)) : Prop := (dir.map (·.length + 1)).sum ≤ 127

instance (dir : List (List UInt8)) : Decidable (Fits dir) := inferInstanceAs (Decidable (_ ≤ _))

theorem fits_iff : Fits dir ↔ (pathOf dir).length ≤ 127 := by
  unfold Fits pathOf
  rw [← length_glue (a := slash)]
  split_ifs with h
  · rw [h]
    decide
  · exact Iff.rfl

/-- **What `parse_path` keeps of the joined path** is what the argument leads to. -/
theorem keptParts_joined (h : Normal dir) : keptParts (joined (pathOf dir) a) = nextDir dir a := by
  have hdir : dir.foldl (capStep dot dotdot 64) [] = dir :=
    foldl_capStep_plain (fun c hc => (h.parts c hc).2.2.2) (by simpa using h.length_le)
  unfold joined nextDir
  split_ifs
  · rfl
  · rw [keptParts, words_append_cons, h.words_pathOf, capped, List.foldl_append, hdir]

/-- The working directory is the path of `dir`. -/
structure AtDir (m : Mem) (dir : List (List UInt8)) : Prop where
  normal : Normal dir
  look : ∃ r, m.look 0 = some (pathOf dir ++ 0 :: r) ∧ (pathOf dir).length + r.length = 127

namespace AtDir

theorem start (junk : ℕ → ℕ → UInt8) : AtDir (start junk) [] :=
  ⟨⟨Nat.zero_le _, nofun⟩, List.replicate 126 0, congrArg (fun l => some (slash :: l)) List.replicate_succ,
    by simp [pathOf]⟩

theorem str (h : AtDir m dir) : Str m workingDir (pathOf dir) := by
  obtain ⟨r, e, -⟩ := h.look
  exact .mk_look h.normal.zero_notMem_pathOf e

theorem length_le (h : AtDir m dir) : (pathOf dir).length ≤ 127 := by
  obtain ⟨r, -, e⟩ := h.look
  omega

theorem fits (h : AtDir m dir) : Fits dir := fits_iff.mpr h.length_le

theorem normal_nextDir (h : AtDir m dir) (ha : 0 ∉ a) : Normal (nextDir dir a) := by
  rw [← keptParts_joined h.normal]
  exact normal_keptParts (zero_notMem_joined h.normal.zero_notMem_pathOf ha)

end AtDir

/-! ## One command -/

theorem exec_cmdCd_eq : exec (cmdCd [p]) m = exec (normalise p >>= fun path => do
    memcpy workingDir path (toSize ((← strlen path) + 1))
    let _ ← strlen workingDir
    free path
    return none) m := by
  simp only [cmdCd, normalise, bind_assoc, pure_bind]

theorem exec_cmdCd_normalise (h : AtDir m dir) (hp : Str m p a) (ha : a.length ≤ 125) :
    ∃ c l z m', exec (normalise p) m = (some (.block c), m') ∧ c ≠ 0 ∧ m'.look 0 = some l ∧ l.length = 128 ∧
      m'.look c = some (pathOf (nextDir dir a) ++ 0 :: z) ∧ Str m' (.block c) (pathOf (nextDir dir a)) ∧
      (pathOf (nextDir dir a)).length ≤ 253 ∧ m.look c = none ∧ ∀ d, d ≠ c → m'.look d = m.look d := by
  obtain ⟨r, hr, hrl⟩ := h.look
  obtain ⟨c, k, m₁, hc, he, hlook⟩ := exec_normalise h.str (Normal.head_pathOf dir) hp h.length_le ha
  have hle := length_pathOf_keptParts (head_joined (a := a) (Normal.head_pathOf dir))
  have hlen := length_joined_le (pathOf dir) a
  have hdir := h.length_le
  rw [keptParts_joined h.normal] at hlook hle
  have hc₀ : 0 ≠ c := Nat.ne_of_lt (Nat.lt_of_lt_of_le (Mem.lt_size hr) hc)
  have hnew := hlook c
  rw [if_pos rfl] at hnew
  refine ⟨c, pathOf dir ++ 0 :: r, _, m₁, he, hc₀.symm, ?_, ?_, hnew, ?_, by omega, Mem.look_of_size_le hc,
    fun d hd => (hlook d).trans (if_neg hd)⟩
  · rw [hlook, if_neg hc₀, hr]
  · rw [List.length_append, List.length_cons]
    omega
  · exact .mk_look (h.normal_nextDir hp.zero_notMem).zero_notMem_pathOf hnew

/-- **`cd` copies a path that fits**, and changes nothing else. -/
theorem exec_cmdCd (h : AtDir m dir) (hp : Str m p a) (ha : a.length ≤ 125) (hfit : Fits (nextDir dir a)) :
    ∃ m', exec (cmdCd [p]) m = (some none, m') ∧ AtDir m' (nextDir dir a) ∧
      ∀ d, d ≠ 0 → m'.look d = m.look d := by
  have hn := h.normal_nextDir hp.zero_notMem
  obtain ⟨c, l, z, m₁, he, hc, hl, hll, hlook, hstr, hlen, hnew, hrest⟩ := exec_cmdCd_normalise h hp ha
  rw [fits_iff] at hfit
  generalize nextDir dir a = dir' at hn hfit hlook hstr hlen ⊢
  have hlt := Mem.lt_size hl
  have hsize : toSize (((pathOf dir').length : ℤ) + 1) = (pathOf dir').length + 1 := toSize_succ (by omega)
  have htake : (pathOf dir' ++ 0 :: z).take ((pathOf dir').length + 1) = pathOf dir' ++ [0] := by
    rw [List.take_append, List.take_of_length_le (by omega)]
    simp
  have hcopy := exec_memcpy (p := .block c) hl hlook (fun e => hc (Ptr.block.inj e)) (n := (pathOf dir').length + 1) (by omega)
    (by simp)
  rw [htake, List.append_assoc, List.singleton_append] at hcopy
  generalize hm₂ : m₁.put 0 (pathOf dir' ++ 0 :: l.drop ((pathOf dir').length + 1)) = m₂ at hcopy
  have hlook₂ : ∀ d, m₂.look d = if d = 0 then some (pathOf dir' ++ 0 :: l.drop ((pathOf dir').length + 1))
      else m₁.look d := fun d => by rw [← hm₂, Mem.look_put hlt]
  have hstr₂ : Str m₂ workingDir (pathOf dir') :=
    .mk_look hn.zero_notMem_pathOf ((hlook₂ 0).trans (if_pos rfl))
  have hfree := exec_free ((hlook₂ c).trans ((if_neg hc).trans hlook))
  refine ⟨m₂.drop c, ?_, ⟨hn, l.drop ((pathOf dir').length + 1), ?_, ?_⟩, fun d hd => ?_⟩
  · rw [exec_cmdCd_eq, exec_bind_some he, exec_bind_some (exec_strlen hstr (by omega)), hsize]
    unfold workingDir at hstr₂ ⊢
    rw [exec_bind_some hcopy, exec_bind_some (exec_strlen hstr₂ (by omega)), exec_bind_some hfree]
    rfl
  · rw [Mem.look_drop, if_neg hc.symm, hlook₂, if_pos rfl]
  · rw [List.length_drop]
    omega
  · rw [Mem.look_drop]
    split_ifs with e
    · rw [e, hnew]
    · rw [hlook₂, if_neg hd, hrest d e]

/-- **A path that does not fit** is copied over the end of `working_dir`. -/
theorem exec_cmdCd_none (h : AtDir m dir) (hp : Str m p a) (ha : a.length ≤ 125)
    (hfit : ¬ Fits (nextDir dir a)) : (exec (cmdCd [p]) m).1 = none := by
  obtain ⟨c, l, z, m₁, he, hc, hl, hll, hlook, hstr, hlen, -⟩ := exec_cmdCd_normalise h hp ha
  rw [fits_iff] at hfit
  generalize nextDir dir a = dir' at hfit hlook hstr hlen
  have hsize : toSize (((pathOf dir').length : ℤ) + 1) = (pathOf dir').length + 1 := toSize_succ (by omega)
  have hcopy := exec_memcpy_none (p := .block c) hl hlook (fun e => hc (Ptr.block.inj e)) (n := (pathOf dir').length + 1)
    (by omega) (by simp)
  obtain ⟨m₂, hm₂⟩ : ∃ m₂, exec (memcpy (.block 0) (.block c) ((pathOf dir').length + 1)) m₁ = (none, m₂) :=
    ⟨_, Prod.ext hcopy rfl⟩
  rw [exec_cmdCd_eq, exec_bind_some he, exec_bind_some (exec_strlen hstr (by omega)), hsize]
  exact congrArg Prod.fst (exec_bind_none hm₂)

/-! ## Sequences of commands -/

/-- The arguments of a command: strings of at most 125 bytes. -/
def ArgsOk (args : List (List UInt8)) : Prop := ∀ a ∈ args, 0 ∉ a ∧ a.length ≤ 125

theorem exec_cd (h : AtDir m dir) (ha : ArgsOk args) (hfit : Fits (cdDir dir args)) :
    ∃ o m', exec (cmdCd (args.map .lit)) m = (some o, m') ∧ AtDir m' (cdDir dir args) := by
  match args, ha, hfit with
  | [], _, _ => exact ⟨_, m, rfl, h⟩
  | [a], ha, hfit =>
    obtain ⟨h₀, hl⟩ := ha a (List.mem_singleton.mpr rfl)
    obtain ⟨m', he, h', -⟩ := exec_cmdCd h (.lit h₀) hl hfit
    exact ⟨none, m', he, h'⟩
  | _ :: _ :: _, _, _ => exact ⟨_, m, rfl, h⟩

theorem exec_cd_none (h : AtDir m dir) (ha : ArgsOk args) (hfit : ¬ Fits (cdDir dir args)) :
    (exec (cmdCd (args.map .lit)) m).1 = none := by
  match args, ha, hfit with
  | [], _, hfit => exact absurd h.fits hfit
  | [a], ha, hfit =>
    obtain ⟨h₀, hl⟩ := ha a (List.mem_singleton.mpr rfl)
    exact exec_cmdCd_none h (.lit h₀) hl hfit
  | _ :: _ :: _, _, hfit => exact absurd h.fits hfit

theorem exec_cds_cons : exec (cds (args :: commands)) m =
    exec (cmdCd (args.map .lit) >>= fun _ => cds commands) m := by
  show exec ((cmdCd (args.map .lit) >>= fun _ => pure PUnit.unit) >>= fun _ => cds commands) m = _
  rw [bind_assoc]
  rfl

/-- **A sequence of commands whose directories all fit.** -/
theorem exec_cds (h : AtDir m dir) (ha : ∀ args ∈ commands, ArgsOk args)
    (hfit : ∀ p, p <+: commands → Fits (p.foldl cdDir dir)) :
    ∃ m', exec (cds commands) m = (some ⟨⟩, m') ∧ AtDir m' (commands.foldl cdDir dir) := by
  induction commands generalizing m dir with
  | nil => exact ⟨m, rfl, h⟩
  | cons args commands ih =>
    rw [List.forall_mem_cons] at ha
    obtain ⟨o, m₁, he, h₁⟩ := exec_cd h ha.1 (hfit [args] (by simp))
    obtain ⟨m', he', h'⟩ := ih h₁ ha.2 fun p hp => hfit (args :: p) (List.cons_prefix_cons.mpr ⟨rfl, hp⟩)
    refine ⟨m', ?_, h'⟩
    rw [exec_cds_cons, exec_bind_some he]
    exact he'

/-- **Otherwise one of them overflows.** -/
theorem exec_cds_none {q : List (List (List UInt8))} (h : AtDir m dir) (ha : ∀ args ∈ commands, ArgsOk args)
    (hq : q <+: commands) (hfit : ¬ Fits (q.foldl cdDir dir)) : (exec (cds commands) m).1 = none := by
  induction commands generalizing m dir q with
  | nil =>
    rw [List.prefix_nil.mp hq] at hfit
    exact absurd h.fits hfit
  | cons args commands ih =>
    rw [List.forall_mem_cons] at ha
    rw [exec_cds_cons]
    by_cases hstep : Fits (cdDir dir args)
    · obtain ⟨o, m₁, he, h₁⟩ := exec_cd h ha.1 hstep
      rw [exec_bind_some he]
      rcases List.prefix_cons_iff.mp hq with rfl | ⟨q', rfl, hq'⟩
      · exact absurd h.fits hfit
      · exact ih h₁ ha.2 hq' hfit
    · have hnone := exec_cd_none h ha.1 hstep
      rw [exec_bind_none (Prod.ext hnone rfl)]

/-! ## What is meant and what is reached -/

theorem countP_dotdot_words_le : 3 * (words slash a).countP (· = dotdot) ≤ a.length + 1 := by
  have hsum : (words slash a).countP (· = dotdot) * (dotdot.length + 1) ≤
      ((words slash a).map (·.length + 1)).sum := countP_mul_le_sum (fun c => c.length + 1) dotdot
  have hle : ((words slash a).map (·.length + 1)).sum ≤ a.length + 1 := sum_words_le
  have hdd : dotdot.length + 1 = 3 := rfl
  rw [hdd] at hsum
  omega

theorem countP_dotdot_joined_le (h : Normal dir) (ha : a.length ≤ 125) :
    (words slash (joined (pathOf dir) a)).countP (· = dotdot) ≤ 64 := by
  have hcount := countP_dotdot_words_le (a := a)
  unfold joined
  split_ifs
  · omega
  · have hdir : dir.countP (· = dotdot) = 0 :=
      List.countP_eq_zero.mpr fun c hc => by simpa using (h.parts c hc).2.2.2.2
    rw [words_append_cons, h.words_pathOf, List.countP_append, hdir]
    omega

/-- **The path is the one that is meant** exactly when no part of it has more than 64 names left. -/
theorem pathOf_keptParts_iff (h : Normal dir) (ha : a.length ≤ 125) :
    pathOf (keptParts (joined (pathOf dir) a)) =
        pathOf (lexical dot dotdot (words slash (joined (pathOf dir) a))) ↔
      NeverDeep dot dotdot 64 (words slash (joined (pathOf dir) a)) := by
  have hcount := countP_dotdot_joined_le h ha
  generalize joined (pathOf dir) a = s at hcount ⊢
  constructor
  · -- a name that is lost leaves fewer names
    intro e
    by_contra hn
    have hlt := length_capped_lt hn hcount
    have hkept : words slash (pathOf (keptParts s)) = keptParts s := words_pathOf fun c hc =>
      ⟨(mem_keptParts hc).1, (mem_keptParts hc).2.1⟩
    have hlex : words slash (pathOf (lexical dot dotdot (words slash s))) =
        lexical dot dotdot (words slash s) := words_pathOf fun c hc =>
      ⟨ne_nil_of_mem_words (mem_lexical hc), (mem_words (mem_lexical hc)).1⟩
    rw [e, hlex] at hkept
    exact absurd (congrArg List.length hkept) (Nat.ne_of_gt hlt)
  · intro hn
    rw [keptParts, capped_eq_lexical hn]

theorem normalise_lexical_iff (h : AtDir m dir) (hp : Str m p a) (ha : a.length ≤ 125) :
    (∃ b m', exec (normalise p) m = (some (.block b), m') ∧ Str m' (.block b)
      (slash :: List.intercalate [slash] (lexical dot dotdot (words slash (joined (pathOf dir) a))))) ↔
      NeverDeep dot dotdot 64 (words slash (joined (pathOf dir) a)) := by
  obtain ⟨c, k, m', -, he, hlook⟩ := exec_normalise h.str (Normal.head_pathOf dir) hp h.length_le ha
  have hstr : Str m' (.block c) (pathOf (keptParts (joined (pathOf dir) a))) := by
    refine .mk_look ?_ ((hlook c).trans (if_pos rfl))
    exact (normal_keptParts (zero_notMem_joined h.str.zero_notMem hp.zero_notMem)).zero_notMem_pathOf
  rw [← pathOf_eq, ← pathOf_keptParts_iff h.normal ha]
  constructor
  · rintro ⟨b, m'', he', hstr'⟩
    rw [he] at he'
    obtain ⟨hb, rfl⟩ := Prod.mk.inj he'
    obtain rfl : c = b := Ptr.block.inj (Option.some.inj hb)
    exact hstr.unique hstr'
  · intro e
    exact ⟨c, m', he, e ▸ hstr⟩

theorem atDir_of_exec_cds {junk : ℕ → ℕ → UInt8} (ha : ∀ args ∈ commands, ArgsOk args)
    (h : exec (cds commands) (start junk) = (some ⟨⟩, m)) :
    AtDir m (dirAfter commands) ∧ ∀ p, p <+: commands → Fits (dirAfter p) := by
  have hfit : ∀ p, p <+: commands → Fits (dirAfter p) := by
    intro q hq
    by_contra hn
    have hnone := exec_cds_none (AtDir.start junk) ha hq hn
    rw [h] at hnone
    exact absurd hnone nofun
  obtain ⟨m', he, h'⟩ := exec_cds (AtDir.start junk) ha hfit
  rw [h] at he
  rw [(Prod.mk.inj he).2]
  exact ⟨h', hfit⟩

/-- **Normalisation is the lexical one, up to 64 names.** From every working directory that `cd` commands
lead to, the path that a command makes of an argument consists of the names that are left of the joined
path, one after the other, exactly when no part of that path has more than 64 names left: `parse_path` has
room for 64 and drops what comes then. -/
theorem normalised_is_lexical_iff (junk : ℕ → ℕ → UInt8) (commands : List (List (List UInt8)))
    (hc : ∀ args ∈ commands, ArgsOk args) (m : Mem)
    (hm : exec (cds commands) (start junk) = (some ⟨⟩, m)) (wd : List UInt8) (hw : Str m workingDir wd)
    (p : Ptr) (a : List UInt8) (hp : Str m p a) (ha : a.length ≤ 125) :
    (∃ b m', exec (normalise p) m = (some (.block b), m') ∧ Str m' (.block b)
      (slash :: List.intercalate [slash] (lexical dot dotdot (words slash (joined wd a))))) ↔
      NeverDeep dot dotdot 64 (words slash (joined wd a)) := by
  obtain ⟨h, -⟩ := atDir_of_exec_cds hc hm
  rw [hw.unique h.str]
  exact normalise_lexical_iff h hp ha

theorem normalised_is_lexical_example : ∃ m, exec (cds [[[97]]]) (start fun _ _ => 7) = (some ⟨⟩, m) ∧
    ∃ b m', exec (normalise (.lit [46, 46, 47, 98])) m = (some (.block b), m') ∧
      Str m' (.block b) [47, 98] := by
  have hargs : ∀ args ∈ [[[(97 : UInt8)]]], ArgsOk args := by
    unfold ArgsOk
    decide
  have hfit : ∀ p ∈ [[[(97 : UInt8)]]].inits, Fits (dirAfter p) := by decide
  obtain ⟨m, hm, h⟩ := exec_cds (AtDir.start fun _ _ => 7) hargs
    fun p hp => hfit p ((List.mem_inits _ _).mpr hp)
  exact ⟨m, hm, (normalised_is_lexical_iff _ _ hargs m hm [47, 97] h.str _ _ (.lit (by decide)) (by decide)).mpr
    (by decide)⟩

/-- After `cd` to 63 directories below the root, the path of `a/a` has 64 names. -/
theorem deep_path_loses_name : ∃ m, exec (cds [[List.intercalate [slash] (List.replicate 63 [97])]])
      (start fun _ _ => 7) = (some ⟨⟩, m) ∧ Str m workingDir (pathOf (List.replicate 63 [97])) ∧
    ¬ ∃ b m', exec (normalise (.lit [97, 47, 97])) m = (some (.block b), m') ∧ Str m' (.block b)
      (slash :: List.intercalate [slash] (lexical dot dotdot
        (words slash (joined (pathOf (List.replicate 63 [97])) [97, 47, 97])))) := by
  have hargs : ∀ args ∈ [[List.intercalate [slash] (List.replicate 63 [97])]], ArgsOk args := by
    unfold ArgsOk
    decide +kernel
  have hfit : ∀ p ∈ [[List.intercalate [slash] (List.replicate 63 [97])]].inits, Fits (dirAfter p) := by
    decide +kernel
  have hdir : dirAfter [[List.intercalate [slash] (List.replicate 63 [97])]] = List.replicate 63 [97] := by
    decide +kernel
  obtain ⟨m, hm, h⟩ := exec_cds (AtDir.start fun _ _ => 7) hargs
    fun p hp => hfit p ((List.mem_inits _ _).mpr hp)
  rw [← dirAfter, hdir] at h
  refine ⟨m, hm, h.str, ?_⟩
  rw [normalise_lexical_iff h (.lit (by decide)) (by decide)]
  decide +kernel

/-- **The working directory overflows** exactly when the commands lead to a directory whose path takes
more than 127 bytes. A copy of more than 128 bytes runs over the end of `working_dir`, so that the
sequence returns only when every path that was copied fits, with its final zero. -/
theorem working_dir_fits_iff (junk : ℕ → ℕ → UInt8) (commands : List (List (List UInt8)))
    (hc : ∀ args ∈ commands, ArgsOk args) :
    (∃ m, exec (cds commands) (start junk) = (some ⟨⟩, m) ∧
      ∃ wd, Str m workingDir wd ∧ wd.length ≤ 127) ↔
      ∀ p, p <+: commands → Fits (dirAfter p) := by
  constructor
  · rintro ⟨m, hm, -⟩
    exact (atDir_of_exec_cds hc hm).2
  · intro hfit
    obtain ⟨m, hm, h⟩ := exec_cds (AtDir.start junk) hc hfit
    exact ⟨m, hm, _, h.str, h.length_le⟩

theorem working_dir_fits_example : ∃ m, exec (cds [[[97]], [[46, 46]]]) (start fun _ _ => 7) = (some ⟨⟩, m) ∧
    ∃ wd, Str m workingDir wd ∧ wd.length ≤ 127 := by
  have hfit : ∀ p ∈ [[[97]], [dotdot]].inits, Fits (dirAfter p) := by decide
  exact (working_dir_fits_iff _ _ (by unfold ArgsOk; decide)).mpr
    fun p hp => hfit p ((List.mem_inits _ _).mpr hp)

/-- Two directories with names of 100 bytes. -/
theorem working_dir_overflows :
    (exec (cds [[List.replicate 100 97], [List.replicate 100 97]]) (start fun _ _ => 7)).1 = none :=
  exec_cds_none (AtDir.start _) (by unfold ArgsOk; decide +kernel) List.prefix_rfl (by decide +kernel)

end Shell
