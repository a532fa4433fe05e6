import Mathlib.Data.List.Infix
import Mathlib.Logic.Function.Basic
import Mathlib.Tactic.Common

/-!
# Maps of files

What a file system is for: a map from lists of names to what is there, and commands on it.

* `Files`, `blank`, `put`, `prune`, `move`: the map, and how it changes.
* `Command`, `Answer`, `Spec`: what a command may answer, and the map it leaves. Commands that need space may
  fail for lack of it; the others have one answer. `Run`: commands one after the other.
* `Command.Fits`: a command that makes sense for a map.
* **`Spec.files`**: what holds for all data that is written holds for all files. **`Run.untouched`**: what no command
  of a run touches stays.
-/

namespace FileMap

/-- What is at a path. -/
inductive Node (Data : Type*)
  | folder
  | file (data : Data)

/-- A file system. -/
abbrev Files (Name Data : Type*) := List Name → Option (Node Data)

/-- What can be asked of a file system. -/
inductive Command (Name Data : Type*)
  | write (cs : List Name) (data : Data)
  | mkdir (cs : List Name)
  | remove (cs : List Name)
  | removeTree (cs : List Name)
  | move (cs cs' : List Name)
  | read (cs : List Name)
  | exist (cs : List Name)
  | list (cs : List Name)
  | restart
  | malformed

/-- What a file system answers. -/
inductive Answer (Name Data : Type*)
  | flag (b : Bool)
  | data (o : Option Data)
  | names (o : Option (List Name))

variable {Name Data : Type*} [DecidableEq Name]

/-- Nothing but a root. -/
def blank : Files Name Data := fun cs => if cs = [] then some .folder else none

/-- The map with `x` at `cs`. -/
def put (M : Files Name Data) (cs : List Name) (x : Node Data) : Files Name Data :=
  Function.update M cs (some x)

/-- The map without what is at `cs` or below. -/
def prune (M : Files Name Data) (cs : List Name) : Files Name Data := fun p => if cs <+: p then none else M p

/-- The map with what was at `cs`, and below, at `cs'`. -/
def move (M : Files Name Data) (cs cs' : List Name) : Files Name Data := fun p =>
  if cs' <+: p then M (cs ++ p.drop cs'.length) else if cs <+: p then none else M p

/-- **What a command may answer**, and the map it leaves. -/
inductive Spec (M : Files Name Data) : Command Name Data → Answer Name Data → Files Name Data → Prop
  | write {cs c data} (hp : M cs = some .folder) (hc : M (cs ++ [c]) ≠ some .folder) :
      Spec M (.write (cs ++ [c]) data) (.flag true) (put M (cs ++ [c]) (.file data))
  | noWrite {cs data} : Spec M (.write cs data) (.flag false) M
  | mkdir {cs c} (hp : M cs = some .folder) (hc : M (cs ++ [c]) = none) :
      Spec M (.mkdir (cs ++ [c])) (.flag true) (put M (cs ++ [c]) .folder)
  | noMkdir {cs} : Spec M (.mkdir cs) (.flag false) M
  | remove {cs} (hc : M cs ≠ none) : Spec M (.remove cs) (.flag true) (prune M cs)
  | noRemove {cs} (hc : M cs = none) : Spec M (.remove cs) (.flag false) M
  | removeTree {cs} (hc : M cs = some .folder) (hne : cs ≠ []) :
      Spec M (.removeTree cs) (.flag true) (prune M cs)
  | noRemoveTree {cs} (hc : M cs ≠ some .folder ∨ cs = []) : Spec M (.removeTree cs) (.flag false) M
  | move {cs cs' c} (hc : M cs ≠ none) (hp : M cs' = some .folder) :
      Spec M (.move cs (cs' ++ [c])) (.flag true) (move M cs (cs' ++ [c]))
  | noMove {cs cs' c} (h : M cs = none ∨ M cs' = none) : Spec M (.move cs (cs' ++ [c])) (.flag false) M
  | read {cs data} (h : M cs = some (.file data)) : Spec M (.read cs) (.data (some data)) M
  | noRead {cs} (h : M cs = none) : Spec M (.read cs) (.data none) M
  | exist {cs} : Spec M (.exist cs) (.flag (M cs).isSome) M
  | list {cs l} (h : M cs = some .folder) (hl : l.Nodup) (hne : l ≠ [])
      (hm : ∀ c, c ∈ l ↔ M (cs ++ [c]) ≠ none) : Spec M (.list cs) (.names (some l)) M
  | noList {cs} (h : M cs = none ∨ M cs = some .folder ∧ ∀ c, M (cs ++ [c]) = none) :
      Spec M (.list cs) (.names none) M
  | restart {ans} : Spec M .restart ans M
  | malformed {ans} (h : ans = .flag false ∨ ans = .data none ∨ ans = .names none) :
      Spec M .malformed ans M

/-- Nothing is made in a file. -/
def ParentFits (M : Files Name Data) (cs : List Name) : Prop :=
  ∀ p c data, cs = p ++ [c] → M p ≠ some (.file data)

/-- **A command that makes sense.** Nothing is made in a file, a directory is not made over a file, only
what is empty is removed alone, nothing is moved over something else or into itself, and files are read and
folders listed. -/
def Command.Fits (M : Files Name Data) : Command Name Data → Prop
  | write cs _ => ParentFits M cs
  | mkdir cs => ParentFits M cs ∧ ∀ data, M cs ≠ some (.file data)
  | remove cs => cs ≠ [] ∧ ∀ c, M (cs ++ [c]) = none
  | removeTree _ => True
  | move cs cs' => cs ≠ [] ∧ cs' ≠ [] ∧ (cs' = cs ∨ M cs' = none) ∧ ParentFits M cs' ∧
      ∀ p c, cs' = p ++ [c] → ¬ cs <+: p
  | read cs => M cs ≠ some .folder
  | exist _ => True
  | list cs => ∀ data, M cs ≠ some (.file data)
  | restart => True
  | malformed => True

/-- The command may change what is at `p`. -/
def Command.Touches (p : List Name) : Command Name Data → Prop
  | write cs _ => cs = p
  | mkdir cs => cs = p
  | remove cs => cs <+: p
  | removeTree cs => cs <+: p
  | move cs cs' => cs <+: p ∨ cs' <+: p
  | _ => False

/-- Commands, with their answers. -/
inductive Run : Files Name Data → List (Command Name Data × Answer Name Data) → Files Name Data → Prop
  | nil {M} : Run M [] M
  | cons {M M' M'' c ans l} (hs : Spec M c ans M') (hr : Run M' l M'') : Run M ((c, ans) :: l) M''

variable {M M' : Files Name Data} {cs cs' p : List Name} {x : Node Data}

theorem put_self : put M cs x cs = some x := Function.update_self ..

theorem put_of_ne (h : p ≠ cs) : put M cs x p = M p := Function.update_of_ne h ..

theorem prune_of_not (h : ¬ cs <+: p) : prune M cs p = M p := if_neg h

theorem prune_below (h : cs <+: p) : prune M cs p = none := if_pos h

theorem move_of_not (h : ¬ cs' <+: p) (h' : ¬ cs <+: p) : move M cs cs' p = M p := by
  rw [move, if_neg h, if_neg h']

theorem move_below (rest : List Name) : move M cs cs' (cs' ++ rest) = M (cs ++ rest) := by
  rw [move, if_pos (List.prefix_append cs' rest), List.drop_left]

theorem move_gone (h : ¬ cs' <+: p) (h' : cs <+: p) : move M cs cs' p = none := by
  rw [move, if_neg h, if_pos h']

/-- **A command changes what it touches.** -/
theorem Spec.untouched {c : Command Name Data} {ans : Answer Name Data} (h : Spec M c ans M')
    (hp : ¬ c.Touches p) : M' p = M p := by
  cases h with
  | write | mkdir => exact put_of_ne fun e => hp e.symm
  | remove | removeTree => exact prune_of_not hp
  | move => exact move_of_not (fun e => hp (.inr e)) fun e => hp (.inl e)
  | _ => rfl

/-- **What holds for all data that is written** holds for all files. -/
theorem Spec.files {P : Data → Prop} {c : Command Name Data} {ans : Answer Name Data} (h : Spec M c ans M')
    (hM : ∀ p data, M p = some (.file data) → P data) (hc : ∀ p data, c = .write p data → P data)
    (p : List Name) (data : Data) (hp : M' p = some (.file data)) : P data := by
  cases h with
  | @write cs name data' _ _ =>
    by_cases e : p = cs ++ [name]
    · rw [e, put_self, Option.some.injEq, Node.file.injEq] at hp
      exact hp ▸ hc _ _ rfl
    · exact hM p data ((put_of_ne e).symm.trans hp)
  | @mkdir cs name _ _ =>
    by_cases e : p = cs ++ [name]
    · rw [e, put_self] at hp
      cases hp
    · exact hM p data ((put_of_ne e).symm.trans hp)
  | remove | removeTree =>
    rw [prune] at hp
    split_ifs at hp
    exact hM p data hp
  | move =>
    rw [FileMap.move] at hp
    split_ifs at hp
    · exact hM _ data hp
    · exact hM p data hp
  | _ => exact hM p data hp

/-- **What no command of a run touches stays.** -/
theorem Run.untouched {l : List (Command Name Data × Answer Name Data)} (h : Run M l M')
    (hp : ∀ x ∈ l, ¬ x.1.Touches p) : M' p = M p := by
  induction h with
  | nil => rfl
  | cons hs _ ih =>
    rw [ih fun x hx => hp x (List.mem_cons_of_mem _ hx)]
    exact hs.untouched (hp _ List.mem_cons_self)

end FileMap
