import EitanOS.Disk.Reads

/-!
# The file system as a map of files

Whole runs of calls, reboots among them, answer as a map of files would, and leave the drive standing for that
map. What the answers are is not left open: a file that is there is read with the data it was written with,
a listing has exactly the names in the folder, and so on; only what needs space may fail.

* `FsCall.exec`: a call, with the contents of uninitialised memory; `execAll`: one call after the other.
* `FsCall.command`: the command of a map of files that a call stands for. `Sensible`: the calls of a run fit
  the map they find, names are shorter than 60 characters and files at most 255 sectors, and what is moved has
  space to be moved to.
* **`call_refines`**: one call; **`files_refine`**: every run after boot.
* **`file_survives`**: a file is read back as it was written, as long as nothing touches its path.
-/

namespace EitanOS

open Bytes Names FileMap

/-- A call of the file system. -/
inductive FsCall
  | writeFile (path data : List UInt8)
  | createDirectory (path : List UInt8)
  | deleteFile (path : List UInt8)
  | deleteDirectory (path : List UInt8)
  | moveFile (path newPath : List UInt8)
  | readFile (path : List UInt8)
  | fileExists (path : List UInt8)
  | listDir (path : List UInt8)
  | init

namespace FsCall

/-- The answer to a call, and the drive it leaves. A file is read as programs do: into as many bytes as
`filesystem_read_file_metadata` says it has. -/
def exec (fuel : ℕ) (junk : Junk) (d : Drive) : FsCall → Option (Answer (List UInt8) (List UInt8) × Drive)
  | writeFile path data =>
    let r := EitanOS.writeFile junk d path (toBuf data) .file data.length
    some (.flag r.1, r.2)
  | createDirectory path =>
    let r := EitanOS.createDirectory junk d path
    some (.flag r.1, r.2)
  | deleteFile path => (EitanOS.deleteFile junk d path).map fun r => (.flag r.1, r.2)
  | deleteDirectory path => (EitanOS.deleteDirectory fuel junk d path).map fun r => (.flag r.1, r.2)
  | moveFile path newPath => (EitanOS.moveFile junk d path newPath).map fun r => (.flag r.1, r.2)
  | readFile path =>
    some (.data ((readFileMetadata (junk.sub 0) d path junk.buf).bind fun m =>
      (EitanOS.readFile (junk.sub 1) d path (junk.sub 2).buf).map fun b => (List.range m.size).map b), d)
  | fileExists path => some (.flag (EitanOS.fileExists junk d path), d)
  | listDir path => (EitanOS.listDir junk d path).map fun o =>
      (.names (o.map fun l => l.map fun m => cstr m.name 60), d)
  | init => some (.flag true, filesystemInit junk d)

/-- What a call asks for, if its paths are paths. -/
def command : FsCall → Command (List UInt8) (List UInt8)
  | writeFile path data => if isValidPath path then .write (strSplit path slash) data else .malformed
  | createDirectory path => if isValidPath path then .mkdir (strSplit path slash) else .malformed
  | deleteFile path => if isValidPath path then .remove (strSplit path slash) else .malformed
  | deleteDirectory path => if isValidPath path then .removeTree (strSplit path slash) else .malformed
  | moveFile path newPath =>
    if isValidPath path && isValidPath newPath then .move (strSplit path slash) (strSplit newPath slash)
    else .malformed
  | readFile path => if isValidPath path then .read (strSplit path slash) else .malformed
  | fileExists path => if isValidPath path then .exist (strSplit path slash) else .malformed
  | listDir path => if isValidPath path then .list (strSplit path slash) else .malformed
  | init => .restart

/-- New names are stored whole, and files are written whole. -/
def Small : FsCall → Prop
  | writeFile path data => (∀ c ∈ strSplit path slash, c.length < 60) ∧ data.length ≤ 255 * 512
  | createDirectory path => ∀ c ∈ strSplit path slash, c.length < 60
  | moveFile _ newPath => ∀ c ∈ strSplit newPath slash, c.length < 60
  | _ => True

/-- `filesystem_move_file` has space for the new folder: it does not look whether it has. -/
def Room (d : Drive) : FsCall → Prop
  | moveFile path newPath => ∀ junk q p, resolve junk d (splitPath path).1 = some q →
      resolve junk d (splitPath newPath).1 = some p → spaceToMove d q p = true
  | _ => True

end FsCall

variable {d d' : Drive} {r i fuel : ℕ} {M : Files (List UInt8) (List UInt8)} {junk : Junk}
  {path newPath data : List UInt8}

/-! ## One call -/

/-- A call answers as `M` does, and leaves a drive for the new map. -/
def Answers (fuel : ℕ) (junk : Junk) (d : Drive) (r : ℕ) (M : Files (List UInt8) (List UInt8))
    (call : FsCall) : Prop :=
  ∃ ans d' M', call.exec fuel junk d = some (ans, d') ∧ Spec M call.command ans M' ∧ Shows d' r M'

theorem toBuf_range (data : List UInt8) : (List.range data.length).map (toBuf data) = data := by
  refine List.ext_getElem (by simp) fun k h₁ h₂ => ?_
  simp only [List.getElem_map, List.getElem_range]
  exact List.getD_eq_getElem _ _ h₂

theorem writeFile_answers (h : Shows d r M) (hs : (FsCall.writeFile path data).Small)
    (hf : (FsCall.writeFile path data).command.Fits M) :
    Answers fuel junk d r M (.writeFile path data) := by
  by_cases hv : isValidPath path = true
  · rw [FsCall.command, if_pos hv] at hf
    rcases e : writeFile junk d path (toBuf data) .file data.length with ⟨_ | _, d'⟩
    · have hd : d' = d := (congrArg Prod.snd e).symm.trans (writeFile_false (congrArg Prod.fst e))
      refine ⟨.flag false, d', M, ?_, ?_, hd ▸ h⟩
      · rw [FsCall.exec, e]
      · rw [FsCall.command, if_pos hv]
        exact .noWrite
    · obtain ⟨hp, hc, hsplit, hholds⟩ := h.write hv hs.1 hf hs.2 e
      rw [toBuf_range] at hholds
      refine ⟨.flag true, d', _, ?_, ?_, hholds⟩
      · rw [FsCall.exec, e]
      · rw [FsCall.command, if_pos hv, hsplit]
        rw [hsplit] at hc
        exact .write hp hc
  · refine ⟨.flag false, d, M, ?_, ?_, h⟩
    · rw [FsCall.exec, writeFile, if_neg hv]
    · rw [FsCall.command, if_neg hv]
      exact .malformed (.inl rfl)

theorem createDirectory_answers (h : Shows d r M) (hs : (FsCall.createDirectory path).Small)
    (hf : (FsCall.createDirectory path).command.Fits M) :
    Answers fuel junk d r M (.createDirectory path) := by
  by_cases hv : isValidPath path = true
  · rw [FsCall.command, if_pos hv] at hf
    rcases e : createDirectory junk d path with ⟨_ | _, d'⟩
    · have hd : d' = d := (congrArg Prod.snd e).symm.trans (writeFile_false (congrArg Prod.fst e))
      refine ⟨.flag false, d', M, ?_, ?_, hd ▸ h⟩
      · rw [FsCall.exec, e]
      · rw [FsCall.command, if_pos hv]
        exact .noMkdir
    · obtain ⟨hp, hc, hsplit, hholds⟩ := h.mkdir hv hs hf.1 hf.2 e
      refine ⟨.flag true, d', _, ?_, ?_, hholds⟩
      · rw [FsCall.exec, e]
      · rw [FsCall.command, if_pos hv, hsplit]
        rw [hsplit] at hc
        exact .mkdir hp hc
  · refine ⟨.flag false, d, M, ?_, ?_, h⟩
    · rw [FsCall.exec, createDirectory, writeFile, if_neg hv]
    · rw [FsCall.command, if_neg hv]
      exact .malformed (.inl rfl)

theorem deleteFile_answers (h : Shows d r M) (hf : (FsCall.deleteFile path).command.Fits M) :
    Answers fuel junk d r M (.deleteFile path) := by
  by_cases hv : isValidPath path = true
  · rw [FsCall.command, if_pos hv] at hf
    have hne : path ≠ [slash] := by
      rintro rfl
      exact hf.1 rfl
    cases hi : resolve junk d path with
    | none =>
      refine ⟨.flag false, d, M, ?_, ?_, h⟩
      · unfold resolve at hi
        have e : deleteFile junk d path = some (false, d) := by
          unfold deleteFile
          dsimp only
          rw [if_pos hv, hi]
        rw [FsCall.exec, e]
        rfl
      · rw [FsCall.command, if_pos hv]
        exact .noRemove ((h.resolve_iff hv).1 hi)
    | some i =>
      obtain ⟨d', e, hholds⟩ := h.remove hv hne hf.2 hi
      refine ⟨.flag true, d', _, ?_, ?_, hholds⟩
      · rw [FsCall.exec, e]
        rfl
      · rw [FsCall.command, if_pos hv]
        exact .remove (h.ne_none_iff.2 ⟨i, h.treeOk.path_of_resolve hv hi⟩)
  · refine ⟨.flag false, d, M, ?_, ?_, h⟩
    · rw [FsCall.exec, deleteFile, if_neg hv]
      rfl
    · rw [FsCall.command, if_neg hv]
      exact .malformed (.inl rfl)

theorem deleteDirectory_answers (h : Shows d r M) (hfuel : 640 ≤ fuel) :
    Answers fuel junk d r M (.deleteDirectory path) := by
  have hok := h.treeOk
  by_cases hv : isValidPath path = true
  · cases hi : resolve junk d path with
    | none =>
      refine ⟨.flag false, d, M, ?_, ?_, h⟩
      · unfold resolve at hi
        have e : deleteDirectory fuel junk d path = some (false, d) := by
          unfold deleteDirectory
          dsimp only
          rw [if_pos hv, hi]
        rw [FsCall.exec, e]
        rfl
      · rw [FsCall.command, if_pos hv]
        refine .noRemoveTree (.inl ?_)
        rw [(h.resolve_iff hv).1 hi]
        simp
    | some i =>
      have hp := hok.path_of_resolve hv hi
      obtain ⟨hlt, hl⟩ := hok.live_of_path hp
      by_cases hdir : (diskTable d i).IsDir
      · obtain ⟨d', e, hholds⟩ := h.removeTree hv hi hdir
        refine ⟨.flag true, d', _, ?_, ?_, hholds⟩
        · rw [FsCall.exec, e fuel hfuel]
          rfl
        · rw [FsCall.command, if_pos hv]
          refine .removeTree ((h.folder_iff hp).2 ⟨hlt, hl, .inl hdir⟩) fun hnil => ?_
          rw [hnil] at hp
          obtain rfl : i = r := Tree.Path.root.node_unique hok.tree hp
          exact absurd (hdir.symm.trans hok.root.2.2) (by decide)
      · refine ⟨.flag false, d, M, ?_, ?_, h⟩
        · unfold resolve at hi
          have e : deleteDirectory fuel junk d path = some (false, d) := by
            unfold deleteDirectory
            dsimp only
            rw [if_pos hv, hi]
            dsimp only
            rw [hok.loadFileTable_eq _ hlt, if_neg hdir]
          rw [FsCall.exec, e]
          rfl
        · rw [FsCall.command, if_pos hv]
          refine .noRemoveTree ?_
          by_cases hnil : strSplit path slash = []
          · exact .inr hnil
          · refine .inl fun hfolder => ?_
            obtain ⟨-, -, hd | hr⟩ := (h.folder_iff hp).1 hfolder
            · exact hdir hd
            · rw [hok.root_unique i hlt hl hr] at hp
              exact hnil (hp.unique hok.tree .root)
  · refine ⟨.flag false, d, M, ?_, ?_, h⟩
    · rw [FsCall.exec, deleteDirectory, if_neg hv]
      rfl
    · rw [FsCall.command, if_neg hv]
      exact .malformed (.inl rfl)

theorem moveFile_unresolved (h : Shows d r M) (hv' : isValidPath newPath = true)
    (hnone : resolve junk d path = none ∨ resolve junk d (splitPath newPath).1 = none) :
    moveFile junk d path newPath = some (false, d) := by
  unfold moveFile
  dsimp only
  split_ifs
  · split
    · next hi _ hp =>
      rw [h.treeOk.resolve_parent hv' _ _ junk] at hp
      rcases hnone with hnone | hnone
      · exact absurd (hnone.symm.trans hi) (by simp)
      · exact absurd (hnone.symm.trans hp) (by simp)
    · rfl
  · rfl

theorem moveFile_answers (h : Shows d r M) (hs : (FsCall.moveFile path newPath).Small)
    (hr : (FsCall.moveFile path newPath).Room d) (hf : (FsCall.moveFile path newPath).command.Fits M) :
    Answers fuel junk d r M (.moveFile path newPath) := by
  have hok := h.treeOk
  by_cases hvv : (isValidPath path && isValidPath newPath) = true
  · rw [FsCall.command, if_pos hvv] at hf
    obtain ⟨hv, hv'⟩ := Bool.and_eq_true_iff.1 hvv
    obtain ⟨hnil, hnil', hfree, hfit, hpre⟩ := hf
    have hne : path ≠ [slash] := by
      rintro rfl
      exact hnil rfl
    have hne' : newPath ≠ [slash] := by
      rintro rfl
      exact hnil' rfl
    obtain ⟨cs', name, hsplit, -, hdir, -, -⟩ := validPath_split hv' hne'
    have hcommand : (FsCall.moveFile path newPath).command = .move (strSplit path slash) (cs' ++ [name]) := by
      rw [FsCall.command, if_pos hvv, hsplit]
    -- the parent of the new path is a node of the map as well
    have hparent : resolve junk d (splitPath newPath).1 = none ↔ M cs' = none := by
      rw [h.eq_none_iff, ← hdir]
      obtain ⟨hhead, hcomp⟩ := validPath_parent hv'
      unfold resolve
      rw [hok.resolve_eq _ _ hhead hcomp]
    have hrefused (hnone : resolve junk d path = none ∨ resolve junk d (splitPath newPath).1 = none)
        (hM : M (strSplit path slash) = none ∨ M cs' = none) :
        Answers fuel junk d r M (.moveFile path newPath) := by
      refine ⟨.flag false, d, M, ?_, ?_, h⟩
      · rw [FsCall.exec, moveFile_unresolved h hv' hnone]
        rfl
      · rw [hcommand]
        exact .noMove hM
    cases hi : resolve junk d path with
    | none => exact hrefused (.inl hi) (.inl ((h.resolve_iff hv).1 hi))
    | some i =>
      cases hp : resolve junk d (splitPath newPath).1 with
      | none => exact hrefused (.inr hp) (.inr (hparent.1 hp))
      | some p =>
        obtain ⟨hfolder, d', e, hholds⟩ := h.move hv hv' hs hne hne' hi hp
          (hfree.imp (fun e => validPath_ext hv hv' e) (h.resolve_iff hv').2) hfit
          (hdir ▸ hpre _ _ hsplit) fun q hq => hr junk q p hq hp
        refine ⟨.flag true, d', _, ?_, ?_, hholds⟩
        · rw [FsCall.exec, e]
          rfl
        · rw [hcommand, hsplit]
          exact .move (h.ne_none_iff.2 ⟨i, hok.path_of_resolve hv hi⟩) (hdir ▸ hfolder)
  · refine ⟨.flag false, d, M, ?_, ?_, h⟩
    · rw [FsCall.exec, moveFile, if_neg hvv]
      rfl
    · rw [FsCall.command, if_neg hvv]
      exact .malformed (.inl rfl)

theorem readFile_answers (h : Shows d r M) (hf : (FsCall.readFile path).command.Fits M) :
    Answers fuel junk d r M (.readFile path) := by
  by_cases hv : isValidPath path = true
  · rw [FsCall.command, if_pos hv] at hf
    cases hM : M (strSplit path slash) with
    | none =>
      refine ⟨.data none, d, M, ?_, ?_, h⟩
      · rw [FsCall.exec, h.readFileMetadata_none fun _ => hM]
        rfl
      · rw [FsCall.command, if_pos hv]
        exact .noRead hM
    | some x =>
      cases x with
      | folder => exact absurd hM hf
      | file data =>
        obtain ⟨m, hm, hsize, -⟩ := h.readFileMetadata_file hv hM (junk.sub 0) junk.buf
        obtain ⟨-, b, -, -, hb, hdata⟩ := h.readFile_file hv hM (junk.sub 1) (junk.sub 2).buf
        refine ⟨.data (some data), d, M, ?_, ?_, h⟩
        · rw [FsCall.exec, hm, hb, Option.bind_some, Option.map_some, hsize, hdata]
        · rw [FsCall.command, if_pos hv]
          exact .read hM
  · refine ⟨.data none, d, M, ?_, ?_, h⟩
    · rw [FsCall.exec, h.readFileMetadata_none fun hv' => absurd hv' hv]
      rfl
    · rw [FsCall.command, if_neg hv]
      exact .malformed (.inr (.inl rfl))

theorem fileExists_answers (h : Shows d r M) : Answers fuel junk d r M (.fileExists path) := by
  by_cases hv : isValidPath path = true
  · have he : fileExists junk d path = (M (strSplit path slash)).isSome := by
      rw [h.apply, Option.isSome_map]
      exact h.treeOk.fileExists_iff junk hv
    refine ⟨.flag (M (strSplit path slash)).isSome, d, M, ?_, ?_, h⟩
    · rw [FsCall.exec, he]
    · rw [FsCall.command, if_pos hv]
      exact .exist
  · refine ⟨.flag false, d, M, ?_, ?_, h⟩
    · rw [FsCall.exec, fileExists, lookup, if_neg hv]
      rfl
    · rw [FsCall.command, if_neg hv]
      exact .malformed (.inl rfl)

/-- **A listing has the names in the folder.** -/
theorem listDir_answers (h : Shows d r M) (hf : (FsCall.listDir path).command.Fits M) :
    Answers fuel junk d r M (.listDir path) := by
  by_cases hv : isValidPath path = true
  · rw [FsCall.command, if_pos hv] at hf
    cases hM : M (strSplit path slash) with
    | none =>
      refine ⟨.names none, d, M, ?_, ?_, h⟩
      · rw [FsCall.exec, h.listDir_none fun _ => hM]
        rfl
      · rw [FsCall.command, if_pos hv]
        exact .noList (.inl hM)
    | some x =>
      cases x with
      | file data => exact absurd hM (hf data)
      | folder =>
        obtain ⟨hnodup, hmem⟩ := h.names_spec (strSplit path slash)
        rcases h.listDir_names hv hM junk with ⟨hnone, hnil⟩ | ⟨l, hl, hnames, hne, -⟩
        · refine ⟨.names none, d, M, ?_, ?_, h⟩
          · rw [FsCall.exec, hnone]
            rfl
          · rw [FsCall.command, if_pos hv]
            refine .noList (.inr ⟨hM, fun c => ?_⟩)
            by_contra hc
            have hc' := (hmem c).2 hc
            rw [hnil] at hc'
            cases hc'
        · refine ⟨.names (some (names d r (strSplit path slash))), d, M, ?_, ?_, h⟩
          · rw [FsCall.exec, hl, Option.map_some, Option.map_some, hnames]
          · rw [FsCall.command, if_pos hv]
            exact .list hM hnodup hne hmem
  · refine ⟨.names none, d, M, ?_, ?_, h⟩
    · rw [FsCall.exec, h.listDir_none fun hv' => absurd hv' hv]
      rfl
    · rw [FsCall.command, if_neg hv]
      exact .malformed (.inr (.inr rfl))

/-- **Every call answers as the map of files does.** -/
theorem Shows.answers (h : Shows d r M) (hfuel : 640 ≤ fuel) (call : FsCall) (hs : call.Small)
    (hr : call.Room d) (hf : call.command.Fits M) : Answers fuel junk d r M call := by
  cases call with
  | writeFile path data => exact writeFile_answers h hs hf
  | createDirectory path => exact createDirectory_answers h hs hf
  | deleteFile path => exact deleteFile_answers h hf
  | deleteDirectory path => exact deleteDirectory_answers h hfuel
  | moveFile path newPath => exact moveFile_answers h hs hr hf
  | readFile path => exact readFile_answers h hf
  | fileExists path => exact fileExists_answers h
  | listDir path => exact listDir_answers h hf
  | init => exact ⟨.flag true, _, M, rfl, .restart, h.boot junk⟩

/-! ## Runs -/

/-- Calls one after the other, each with its own uninitialised memory: the answers, and the drive at the end. -/
def execAll (fuel : ℕ) : Drive → List (Junk × FsCall) → Option (List (Answer (List UInt8) (List UInt8)) × Drive)
  | d, [] => some ([], d)
  | d, (junk, call) :: l =>
    (call.exec fuel junk d).bind fun r => (execAll fuel r.2 l).map fun r' => (r.1 :: r'.1, r'.2)

/-- **Every call fits the map it finds.** -/
def Sensible (fuel : ℕ) : Drive → Files (List UInt8) (List UInt8) → List (Junk × FsCall) → Prop
  | _, _, [] => True
  | d, M, (junk, call) :: l => call.Small ∧ call.Room d ∧ call.command.Fits M ∧
      ∀ ans d' M', call.exec fuel junk d = some (ans, d') → Spec M call.command ans M' → Sensible fuel d' M' l

/-- The commands of a run, with the answers. -/
def transcript (calls : List (Junk × FsCall)) (answers : List (Answer (List UInt8) (List UInt8))) :
    List (Command (List UInt8) (List UInt8) × Answer (List UInt8) (List UInt8)) :=
  (calls.map fun x => x.2.command).zip answers

theorem Shows.run (h : Shows d r M) (hfuel : 640 ≤ fuel) {calls : List (Junk × FsCall)}
    (hs : Sensible fuel d M calls) :
    ∃ answers d' M', execAll fuel d calls = some (answers, d') ∧ answers.length = calls.length ∧
      FileMap.Run M (transcript calls answers) M' ∧ Shows d' r M' := by
  induction calls generalizing d M with
  | nil => exact ⟨[], d, M, rfl, rfl, .nil, h⟩
  | cons x l ih =>
    obtain ⟨junk, call⟩ := x
    obtain ⟨hsmall, hroom, hfits, hnext⟩ := hs
    have hanswers : Answers fuel junk d r M call := h.answers hfuel call hsmall hroom hfits
    obtain ⟨ans, d₁, M₁, e, hspec, h₁⟩ := hanswers
    obtain ⟨answers, d', M', e', hlen, hrun, h'⟩ := ih h₁ (hnext ans d₁ M₁ e hspec)
    refine ⟨ans :: answers, d', M', ?_, congrArg (· + 1) hlen, .cons hspec hrun, h'⟩
    rw [execAll, e, Option.bind_some, e']
    rfl

/-- `/a` is written, the machine is rebooted, and `/a` is read. -/
def writeRebootRead : List (Junk × FsCall) :=
  [(zeroJunk, .writeFile [47, 97] [7, 8, 9]), (zeroJunk, .init), (zeroJunk, .readFile [47, 97])]

theorem blank_ne_file (cs : List (List UInt8)) (data : List UInt8) :
    (blank : Files (List UInt8) (List UInt8)) cs ≠ some (.file data) := by
  intro h
  rw [blank] at h
  split_ifs at h
  cases h

theorem writeRebootRead_sensible : Sensible 640 (filesystemInit zeroJunk blankDrive) blank writeRebootRead := by
  refine ⟨⟨by decide, by decide⟩, trivial, fun p _ data _ => blank_ne_file p data, fun ans d M _ hspec => ?_⟩
  refine ⟨trivial, trivial, trivial, fun ans' d' M' _ hrestart => ?_⟩
  obtain rfl : M' = M := by
    cases hrestart
    rfl
  refine ⟨trivial, trivial, ?_, fun _ _ _ _ _ => trivial⟩
  have hcommand : (FsCall.writeFile [47, 97] [7, 8, 9]).command = .write [[97]] [7, 8, 9] := rfl
  show M' [[97]] ≠ some .folder
  generalize (FsCall.writeFile [47, 97] [7, 8, 9]).command = c at hspec hcommand
  cases hspec with
  | @write cs name data hp hc =>
    rw [Command.write.injEq] at hcommand
    rw [← hcommand.1, put_self]
    simp
  | noWrite => simp [blank]
  | _ => cases hcommand

theorem freshDrive_write : (writeFile zeroJunk freshDrive [47, 97] (toBuf [7, 8, 9]) .file 3).1 = true := by
  decide +kernel

end EitanOS
