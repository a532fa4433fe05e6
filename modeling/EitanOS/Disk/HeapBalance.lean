import EitanOS.Process.Ownership

/-!
# Which file calls give back what they take

A call of `filesystem.c` that returns should leave the heaps as they were, but for the file table and
the array that `filesystem_list_dir` returns. `resolve_path` never frees the tokens of `str_split`, so
that only a path without components costs nothing; `filesystem_read_file_metadata` and
`filesystem_delete_file` do not free the parts of the path when they succeed, and
`filesystem_list_dir` asks for the metadata.

* `FileCall.run_leaves`, `FileCall.run_invalid`: what a call leaves, by call.
* **`heap_balanced_iff`**: the heaps are as before exactly if a path is refused or the call is one of
  the few with nothing to lose.
* **`file_exists_leaks`**: to ask for `/a` costs two blocks.
-/

namespace EitanOS

open Prog Bytes

/-- What a call returns: failure, success, or an array. -/
inductive Outcome
  | failed
  | done
  | array (p : ℕ)
deriving DecidableEq

namespace Outcome

/-- The array that is returned, as a block of the heap `sp`. -/
def blocks (sp : ℕ) : Outcome → List (ℕ × ℕ)
  | array p => [(sp, p)]
  | _ => []

/-- Of a `bool`. -/
def ofBool : Bool → Outcome
  | false => failed
  | true => done

theorem blocks_ofBool (sp : ℕ) (b : Bool) : (ofBool b).blocks sp = [] := by
  cases b <;> rfl

/-- Of the array of `filesystem_list_dir`, or null. -/
def ofPointer : Option ℕ → Outcome
  | none => failed
  | some p => array p

theorem blocks_ofPointer (sp : ℕ) (r : Option ℕ) : (ofPointer r).blocks sp = Sys.listed sp r := by
  cases r <;> rfl

end Outcome

/-- The calls of `filesystem.h`. -/
inductive FileCall
  | readFile (path : List UInt8) (dataOut : ℕ)
  | readFileMetadata (path : List UInt8)
  | fileExists (path : List UInt8)
  | writeFile (path : List UInt8) (data : Buf) (type : FileType) (size : ℕ)
  | createDirectory (path : List UInt8)
  | deleteFile (path : List UInt8)
  | deleteDirectory (depth : ℕ) (path : List UInt8)
  | moveFile (path newPath : List UInt8)
  | listDir (path : List UInt8)

namespace FileCall

/-- The call on the machine. -/
def run (junk : Junk) : FileCall → Sys Outcome
  | readFile path dataOut => do return .ofBool (← Sys.readFile junk path dataOut).isSome
  | readFileMetadata path => do return .ofBool (← Sys.readFileMetadata junk path).isSome
  | fileExists path => do return .ofBool (← Sys.fileExists junk path)
  | writeFile path data type size => do return .ofBool (← Sys.writeFile junk path data type size)
  | createDirectory path => do return .ofBool (← Sys.createDirectory junk path)
  | deleteFile path => do return .ofBool (← Sys.deleteFile junk path)
  | deleteDirectory depth path => do return .ofBool (← Sys.deleteDirectory depth junk path)
  | moveFile path newPath => do return .ofBool (← Sys.moveFile junk path newPath)
  | listDir path => do return .ofPointer (← Sys.listDir junk path)

/-- The paths that are checked first. -/
def paths : FileCall → List (List UInt8)
  | readFile path _ | readFileMetadata path | fileExists path | writeFile path _ _ _
  | createDirectory path | deleteFile path | deleteDirectory _ path | listDir path => [path]
  | moveFile path newPath => [path, newPath]

/-- **The calls that lose no block**, by what is on the drive `d`. The root is the only path without
components. Its metadata are read if there is one, and it is deleted if there is space for its entries
less one; with `filesystem_move_file`, only the components of the directory of the second path
count. -/
def Quiet (junk : Junk) (d : Drive) : FileCall → Prop
  | readFile path _ | fileExists path | writeFile path _ _ _ | createDirectory path
  | deleteDirectory _ path => path = [slash]
  | readFileMetadata path => path = [slash] ∧ findRoot (loadFileTable (junk.sub 0) d) = none
  | deleteFile path => path = [slash] ∧ ∀ i, findRoot (loadFileTable (junk.sub 0) d) = some i →
      findSpaceForFile d ((loadFileTable (junk.sub 0) d).clear i)
        (Sys.newEntriesSize (loadFileTable (junk.sub 0) d i)) = none
  | moveFile path newPath => path = [slash] ∧
      ((strSplit newPath slash).length ≤ 1 ∨ findRoot (loadFileTable (junk.sub 0) d) = none)
  | listDir path => path = [slash] ∧
      (findRoot (loadFileTable ((junk.sub 0).sub 0) d) = none ∨
        findRoot (loadFileTable ((junk.sub 1).sub 0) d) = none)

variable {sp : ℕ} {base : ℕ → List ℕ} {held : List (ℕ × ℕ)} {junk : Junk} {d : Drive} {c : FileCall}

theorem ofBool_leaves {α : Type} {m : Sys α} {f : α → Bool} {q : Prop}
    (h : Triple KernelOk (Sys.Loads sp base held 0 d) m fun _ => Sys.Leaves sp base held q) :
    Triple KernelOk (Sys.Loads sp base held 0 d) (do return Outcome.ofBool (f (← m))) fun r =>
      Sys.Leaves sp base (r.blocks sp ++ held) q := by
  refine h.bind fun r => Triple.ret fun s hs => ?_
  rw [Outcome.blocks_ofBool, List.nil_append]
  exact hs

/-- **What a call leaves**, with paths that are valid. -/
theorem run_leaves (hv : c.paths.all isValidPath) :
    Triple KernelOk (Sys.Loads sp base held 0 d) (c.run junk) fun r =>
      Sys.Leaves sp base (r.blocks sp ++ held) (c.Quiet junk d) := by
  cases c with
  | readFile path _ => exact ofBool_leaves (Sys.readFile_leaves (valid_of_paths hv))
  | readFileMetadata path => exact ofBool_leaves (Sys.readFileMetadata_leaves (valid_of_paths hv))
  | fileExists path => exact ofBool_leaves (Sys.fileExists_leaves (valid_of_paths hv))
  | writeFile path _ _ _ => exact ofBool_leaves (Sys.writeFile_leaves (valid_of_paths hv))
  | createDirectory path => exact ofBool_leaves (Sys.writeFile_leaves (valid_of_paths hv))
  | deleteFile path => exact ofBool_leaves (Sys.deleteFile_leaves (valid_of_paths hv))
  | deleteDirectory _ path => exact ofBool_leaves (Sys.deleteDirectory_leaves (valid_of_paths hv))
  | moveFile path newPath =>
    exact ofBool_leaves (Sys.moveFile_leaves (by simpa [paths] using hv))
  | listDir path =>
    refine (Sys.listDir_leaves (valid_of_paths hv)).bind fun r => Triple.ret fun s hs => ?_
    rw [Outcome.blocks_ofPointer]
    exact hs

/-- **A path that is not valid is refused, and nothing else happens.** -/
theorem run_invalid (hv : ¬ c.paths.all isValidPath) (s : Kernel) :
    exec (c.run junk) s = (some .failed, s) := by
  cases c with
  | moveFile path newPath =>
    have hv' : ¬ (isValidPath path && isValidPath newPath) := by simpa [paths] using hv
    rw [run, Sys.moveFile, if_neg hv']
    rfl
  | _ => simp_all [paths, run, Sys.readFile, Sys.readFileMetadata, Sys.fileExists, Sys.lookup,
      Sys.writeFile, Sys.createDirectory, Sys.deleteFile, Sys.deleteDirectory, Sys.listDir,
      Outcome.ofBool, Outcome.ofPointer]

end FileCall

/-- The blocks that are handed out, other than the file table, are those of before and those
returned. -/
def Balanced (s s' : Kernel) (returned : List (ℕ × ℕ)) : Prop :=
  ∀ o, (s'.others o).Perm (blocksOf o returned ++ s.others o)

/-- **Which file calls are balanced**: from every state of the heaps and of the drive, a call that
returns leaves the same blocks handed out exactly if one of its paths is not valid, or the call is one
that loses no block. -/
theorem heap_balanced_iff {sp t : ℕ} {s s' : Kernel} {junk : Junk} {c : FileCall} {r : Outcome}
    (h : Holds sp t [(sp, t)] s) (e : exec (c.run junk) s = (some r, s')) :
    Balanced s s' (r.blocks sp) ↔ (c.paths.all isValidPath → c.Quiet junk s.drive) := by
  by_cases hv : c.paths.all isValidPath
  · have hrun : Triple KernelOk (Sys.Loads sp s.others [] 0 s.drive) (c.run junk) fun r =>
        Sys.Leaves sp s.others (r.blocks sp ++ []) (c.Quiet junk s.drive) := FileCall.run_leaves hv
    have hleft := hrun s ⟨t, h.spends_others⟩
    rw [e] at hleft
    obtain ⟨n, d, hs, hn⟩ := hleft
    rw [List.append_nil] at hs
    exact (hs.unlost_iff.symm.trans hn).trans ⟨fun hq _ => hq, fun hq => hq hv⟩
  · obtain ⟨rfl, rfl⟩ : Outcome.failed = r ∧ s = s' := by
      simpa [FileCall.run_invalid hv] using e
    exact iff_of_true (fun o => .refl _) fun h => absurd h hv

/-- A machine with an empty disk. -/
def emptyDiskBoot : Boot := { rootedBoot with drive := ⟨fun _ => 0, 1000⟩ }

theorem emptyDiskBoot_holds : Holds 0 0 [(0, 0)] emptyDiskBoot.start :=
  (start_holds emptyDiskBoot).null 0

theorem heap_balanced_iff_root :
    (exec ((FileCall.fileExists [47]).run fun _ _ => 0) emptyDiskBoot.start).1 = some .failed ∧
      Balanced emptyDiskBoot.start
        (exec ((FileCall.fileExists [47]).run fun _ _ => 0) emptyDiskBoot.start).2 [] := by
  have hr : (exec ((FileCall.fileExists [47]).run fun _ _ => 0) emptyDiskBoot.start).1 =
      some .failed := by decide +kernel
  obtain ⟨⟨r, s⟩, e⟩ : ∃ x, exec ((FileCall.fileExists [47]).run fun _ _ => 0) emptyDiskBoot.start = x :=
    ⟨_, rfl⟩
  rw [e] at hr ⊢
  obtain rfl : r = some .failed := hr
  exact ⟨rfl, (heap_balanced_iff emptyDiskBoot_holds e).mpr fun _ => rfl⟩

/-- **To ask for `/a` costs two blocks**: the array of the tokens and the token `a`. -/
theorem file_exists_leaks :
    (exec ((FileCall.fileExists [47, 97]).run fun _ _ => 0) emptyDiskBoot.start).1 = some .failed ∧
      emptyDiskBoot.start.others 0 = [] ∧
      ((exec ((FileCall.fileExists [47, 97]).run fun _ _ => 0) emptyDiskBoot.start).2.others 0).length
        = 2 ∧
      ¬ Balanced emptyDiskBoot.start
        (exec ((FileCall.fileExists [47, 97]).run fun _ _ => 0) emptyDiskBoot.start).2 [] := by
  -- one computation for both: the call is what takes the time
  have hcall : (exec ((FileCall.fileExists [47, 97]).run fun _ _ => 0) emptyDiskBoot.start).1 =
      some .failed ∧ ((exec ((FileCall.fileExists [47, 97]).run fun _ _ => 0)
        emptyDiskBoot.start).2.others 0).length = 2 := by
    decide +kernel
  obtain ⟨hr, hlen⟩ := hcall
  refine ⟨hr, by decide +kernel, hlen, fun h => ?_⟩
  have hperm := (h 0).length_eq
  rw [hlen] at hperm
  exact absurd hperm (by decide +kernel)

end EitanOS
