import EitanOS.Disk.Ata

/-!
# Sessions with the drive

What `filesystem_init` and every list of transfers after it do to the medium behind the ports is what
`filesystemInit`, `readSectors` and `writeSectors` do to a `Drive`, with the sector count that IDENTIFY gave.
No access is made that the drive is not ready for, however long it takes for each step.

* **`identifyDrive_outcome`**: what `identify_drive` finds out, for whatever is at the ports.
* `Driver.filesystemInit`, `Driver.serve`: boot, and a list of requests; `Drive.serve`: the same on a `Drive`.
* **`session_refines`**: boot and requests, through the ports and on a `Drive`.
-/

namespace EitanOS

open Bytes Prog

variable {s : Driver} {fuel : ℕ} {kind : AtaKind} {identity : ℕ → UInt16} {b : Buf} {p : Phase}
  {F : Driver → Prop} {a : Ata}

/-! ## IDENTIFY -/

/-- The registers after `sendIdentify`, just before the command. -/
def Ata.asked (a : Ata) : Ata :=
  { a with select := 0b10110000, sectors := 0, lbaLow := 0, lbaMid := 0, lbaHigh := 0 }

/-- The signature that a device leaves in its registers. -/
def AtaKind.signature : AtaKind → UInt8 × UInt8
  | packet => (0x14, 0xEB)
  | _ => (0, 0)

/-- What a device does when it is asked for its identity. -/
def AtaKind.phase : AtaKind → Phase
  | disk => .identifying 0
  | _ => .aborted

/-- The registers after IDENTIFY. -/
def Ata.signed (a : Ata) : Ata :=
  { a.asked with lbaMid := a.kind.signature.1, lbaHigh := a.kind.signature.2 }

theorem Ata.command_asked (hk : a.kind ≠ .absent) :
    a.asked.command 0xEC = some (a.signed.start a.kind.phase) := by
  have hslave : ¬ a.asked.select &&& 0x10 = 0 := show ¬ (0b10110000 : UInt8) &&& 0x10 = 0 by decide
  unfold command signed
  rw [if_neg hslave, if_pos rfl]
  by_cases hd : a.kind = .disk
  · rw [if_pos (show a.asked.kind = .disk from hd), hd]
    rfl
  · have hp : a.kind = .packet := by
      rcases h : a.kind with _ | _ | _
      · exact absurd h hk
      · rfl
      · exact absurd h hd
    rw [if_neg (show ¬ a.asked.kind = .disk from hd), hp]
    rfl

theorem Ata.Tracks.signed (h : a.Tracks fuel kind identity b p) :
    a.signed.Tracks fuel kind identity b p := { h with }

namespace Driver

/-- The timing of the drive is bounded, and it is ready for a command. -/
structure Quiet (fuel : ℕ) (s : Driver) : Prop where
  rests : s.drive.busy = 0 ∧ s.drive.phase.transfers = false
  waits_lt : s.drive.waits < fuel
  delays_lt : ∀ i, s.drive.delays i < fuel

theorem Quiet.tracks (h : s.Quiet fuel) (hk : s.drive.kind ≠ .absent) :
    s.drive.Tracks fuel s.drive.kind s.drive.identity s.drive.bytes s.drive.phase where
  present := hk
  kind_eq := rfl
  identity_eq := rfl
  bytes_eq := rfl
  phase_eq := rfl
  busy_lt := by
    have := h.waits_lt
    rw [h.rests.1]
    omega
  waits_lt := h.waits_lt
  delays_lt := h.delays_lt

theorem exec_identifyDrive_absent (h : s.drive.kind = .absent) :
    exec (identifyDrive fuel) s = (none, { s with stopped := some (.panicked "drive does not exist") }) := by
  have hout (port : UInt16) (w : UInt8) : exec (access (Ata.outb port w)) s = (some ⟨⟩, s) :=
    exec_access (if_pos h)
  have hstatus : exec (access (Ata.inb 0x1F7)) s = (some 0, s) := by
    refine exec_access (a := s.drive) ?_
    show some s.drive.status = _
    rw [Ata.status, if_pos h]
  have hsend : exec sendIdentify s = (some ⟨⟩, s) := by
    unfold sendIdentify
    rw [exec_bind_some (hout _ _), exec_bind_some (hout _ _), exec_bind_some (hout _ _),
      exec_bind_some (hout _ _), exec_bind_some (hout _ _), hout]
  unfold identifyDrive
  rw [exec_bind_some hsend, exec_bind_some hstatus]
  rfl

theorem exec_sendIdentify (h : s.drive.Rests) :
    exec sendIdentify s = (some ⟨⟩, s.withDrive (s.drive.signed.start s.drive.kind.phase)) := by
  unfold sendIdentify
  rw [exec_bind_some (exec_access h.outb_select),
    exec_bind_some (exec_access (Ata.Rests.outb_sectors (by exact h))),
    exec_bind_some (exec_access (Ata.Rests.outb_lbaLow (by exact h))),
    exec_bind_some (exec_access (Ata.Rests.outb_lbaMid (by exact h))),
    exec_bind_some (exec_access (Ata.Rests.outb_lbaHigh (by exact h)))]
  exact exec_access (Ata.Rests.outb_command (a := s.drive.asked) h (Ata.command_asked h.1))

/-- A device that was asked for its identity, and shows its signature. -/
def Signed (fuel : ℕ) (kind : AtaKind) (identity : ℕ → UInt16) (b : Buf) (a : Ata) : Prop :=
  a.Tracks fuel kind identity b kind.phase ∧ (a.lbaMid, a.lbaHigh) = kind.signature

/-- **A device that exists** does not read as 0. -/
theorem status_spec : Triple F (s.On (Signed fuel kind identity b)) (access (Ata.inb 0x1F7))
    fun v t => v ≠ 0 ∧ s.On (Signed fuel kind identity b) t := by
  refine (triple_access (Q := fun v a => v ≠ 0 ∧ Signed fuel kind identity b a) ?_).post ?_
  · rintro a ⟨ha, hs⟩
    obtain ⟨hmid, hhigh⟩ := a.status_registers
    rw [← hmid, ← hhigh] at hs
    by_cases hb : a.busy = 0
    · obtain ⟨v, a', hst, hv, -, ha', -⟩ := ha.status_free hb
      rw [hst] at hs
      exact ⟨v, a', congrArg some hst, hv, ha', hs⟩
    · obtain ⟨hst, ha'⟩ := ha.status_busy (by omega)
      rw [hst] at hs
      exact ⟨_, _, congrArg some hst, by decide, ha', hs⟩
  · rintro v t ⟨a, ⟨hv, ha⟩, ht⟩
    exact ⟨hv, a, ha, ht⟩

theorem waitBusy_registers (x : UInt8 × UInt8) (n : ℕ) :
    Triple (fun _ => True) (fun t => (t.drive.lbaMid, t.drive.lbaHigh) = x) (waitBusy n)
      fun _ t => (t.drive.lbaMid, t.drive.lbaHigh) = x := by
  induction n with
  | zero => exact fun t ht => True.intro
  | succ n ih =>
    refine Triple.bind (R := fun _ t => (t.drive.lbaMid, t.drive.lbaHigh) = x) ?_ fun v =>
      Triple.ite (fun _ => ih) fun _ => Triple.ret fun t ht => ht
    intro t ht
    obtain ⟨hmid, hhigh⟩ := t.drive.status_registers
    rw [exec_access (a := t.drive.status.2) rfl]
    show (t.drive.status.2.lbaMid, t.drive.status.2.lbaHigh) = x
    rw [hmid, hhigh, ht]

theorem waitBusy_signed : Triple F (s.On (Signed fuel kind identity b)) (waitBusy fuel)
    fun _ => s.On fun a => Signed fuel kind identity b a ∧ a.busy = 0 := by
  have h : Triple F (s.On (Ata.Tracks fuel kind identity b kind.phase)) (waitBusy fuel) _ := waitBusy_spec
  refine ((h.and (waitBusy_registers kind.signature fuel)).pre ?_).post ?_
  · rintro t ⟨a, ⟨ha, hs⟩, rfl⟩
    exact ⟨⟨a, ha, rfl⟩, hs⟩
  · rintro _ t ⟨⟨a, ⟨ha, hb⟩, rfl⟩, hs⟩
    exact ⟨a, ⟨⟨ha, hs⟩, hb⟩, rfl⟩

/-- **The signature tells a disk from a packet device.** -/
theorem notAta_spec : Triple F (s.On fun a => Signed fuel kind identity b a ∧ a.busy = 0) notAta
    fun v t => v = decide (kind = .packet) ∧
      s.On (fun a => a.Tracks fuel kind identity b kind.phase ∧ a.busy = 0) t := by
  rintro t ⟨a, ⟨⟨ha, hs⟩, hb⟩, rfl⟩
  have hbusy : ¬ 0 < a.busy := by omega
  have habs : ¬ a.kind = .absent := fun h => ha.present (ha.kind_eq ▸ h)
  have hmid : exec (access (Ata.inb 0x1F4)) (s.withDrive a) = (some a.lbaMid, s.withDrive a) := by
    refine exec_access ?_
    show Ata.inb 0x1F4 a = _
    rw [Ata.inb, if_neg (by decide), if_neg habs, if_neg hbusy, if_pos rfl]
  have hhigh : exec (access (Ata.inb 0x1F5)) (s.withDrive a) = (some a.lbaHigh, s.withDrive a) := by
    refine exec_access ?_
    show Ata.inb 0x1F5 a = _
    rw [Ata.inb, if_neg (by decide), if_neg habs, if_neg hbusy, if_neg (by decide), if_pos rfl]
  obtain ⟨hm, hh⟩ := Prod.mk.inj hs
  have hon : s.On (fun a => a.Tracks fuel kind identity b kind.phase ∧ a.busy = 0) (s.withDrive a) :=
    ⟨a, ⟨ha, hb⟩, rfl⟩
  unfold notAta
  rw [exec_bind_some hmid, hm]
  rcases kind with _ | _ | _
  · exact absurd rfl ha.present
  · exact ⟨rfl, hon⟩
  · rw [if_neg (by decide), exec_bind_some hhigh, hh]
    exact ⟨rfl, hon⟩

/-- Where the drive is after `i` words of its identity. -/
def identifyingAt (i : ℕ) : Phase := if i < 256 then .identifying i else .idle

theorem inw_identifying {i : ℕ} (h : a.Tracks fuel kind identity b (identifyingAt i)) (hi : i < 256)
    (hd : a.DataRequest) : ∃ a', a.inw = some (identity i, a') ∧
      a'.Tracks fuel kind identity b (identifyingAt (i + 1)) ∧ a'.DataRequest := by
  have hp := h.phase_eq
  rw [identifyingAt, if_pos hi] at hp
  refine ⟨{ a with phase := identifyingAt (i + 1) }, ?_, h.move, hd⟩
  unfold Ata.inw
  rw [if_pos hd, hp, h.identity_eq]
  rfl

/-- **The 256 words of the identity** are stored. -/
theorem storeIdentity_spec :
    Triple F (s.On fun a => a.Tracks fuel kind identity b (.identifying 0) ∧ a.busy = 0)
      (storeIdentity fuel) fun _ => { s with
        model := modelOf ((List.range 256).map identity) ++ [0]
        sectorCount := identity 60 }.On (Ata.Tracks fuel kind identity b .idle) := by
  refine (waitDataRequestReady_spec rfl).bind fun _ => Triple.bind (R := fun data t =>
    data = (List.range 256).map identity ∧ s.On (Ata.Tracks fuel kind identity b .idle) t) ?_ ?_
  · refine ((Triple.foldlM_range (n := 256) (b := []) (I := fun i data t =>
      data = (List.range i).map identity ∧ s.On (fun a =>
        a.Tracks fuel kind identity b (identifyingAt i) ∧ a.DataRequest) t) ?_).pre ?_).post ?_
    · intro i hi data
      refine Triple.assume fun hdata => Triple.bind (triple_access (Q := fun v a => v = identity i ∧
        a.Tracks fuel kind identity b (identifyingAt (i + 1)) ∧ a.DataRequest) ?_) fun v => Triple.ret ?_
      · rintro a ⟨ha, hd⟩
        obtain ⟨a', hf, ha'⟩ := inw_identifying ha hi hd
        exact ⟨_, a', hf, rfl, ha'⟩
      · rintro t ⟨a, ⟨rfl, ha⟩, rfl⟩
        refine ⟨?_, a, ha, rfl⟩
        rw [List.range_succ, List.map_append, ← hdata]
        rfl
    · intro t ht
      exact ⟨rfl, ht⟩
    · rintro data t ⟨hdata, a, ⟨ha, -⟩, rfl⟩
      exact ⟨hdata, a, ha, rfl⟩
  · intro data
    refine Triple.modify ?_
    rintro t ⟨rfl, a, ha, rfl⟩
    exact ⟨a, ha, rfl⟩

theorem sendIdentify_spec (h : s.Quiet fuel) (hk : s.drive.kind ≠ .absent) :
    Triple F (fun t => t = s) sendIdentify
      fun _ => s.On (Signed fuel s.drive.kind s.drive.identity s.drive.bytes) := by
  rintro t rfl
  rw [exec_sendIdentify ⟨hk, h.rests⟩]
  exact ⟨_, ⟨(h.tracks hk).signed.start, rfl⟩, rfl⟩

/-- The variables of the driver after `identify_drive`. -/
def identified (s : Driver) : Driver :=
  { s with
    model := modelOf ((List.range 256).map s.drive.identity) ++ [0]
    sectorCount := s.drive.identity 60
    writableDrive := true }

/-- **`identify_drive` at a device**: it returns for a disk, and panics for a packet device. -/
theorem identifyDrive_spec (h : s.Quiet fuel) (hk : s.drive.kind ≠ .absent) :
    Triple (fun t => s.drive.kind = .packet ∧ ∃ a, a.bytes = s.drive.bytes ∧ t = { s with
        drive := a, writableDrive := false, stopped := some (.panicked "not a writeable drive") })
      (fun t => t = s) (identifyDrive fuel)
      fun _ t => s.drive.kind = .disk ∧
        s.identified.On (Ata.Tracks fuel .disk s.drive.identity s.drive.bytes .idle) t := by
  refine (sendIdentify_spec h hk).bind fun _ => status_spec.bind fun v => ?_
  refine Triple.assume fun hv => Triple.ite (fun h0 => absurd h0 hv) fun _ => ?_
  refine waitBusy_signed.bind fun _ => ?_
  refine (Triple.modify (Q := fun _ => { s with writableDrive := true }.On fun a =>
    Signed fuel s.drive.kind s.drive.identity s.drive.bytes a ∧ a.busy = 0) ?_).bind fun _ => ?_
  · rintro t ⟨a, ha, rfl⟩
    exact ⟨a, ha, rfl⟩
  refine notAta_spec.bind fun other => Triple.assume fun hother => ?_
  rw [hother]
  generalize hkind : s.drive.kind = kind at hk ⊢
  rcases kind with _ | _ | _
  · exact absurd rfl hk
  · rintro t ⟨a, ⟨ha, -⟩, rfl⟩
    exact ⟨rfl, a, ha.bytes_eq, rfl⟩
  · exact storeIdentity_spec.post fun _ t ht => ⟨rfl, ht⟩

theorem identifyDrive_disk (h : s.Quiet fuel) (hk : s.drive.kind = .disk) :
    ∃ a, exec (identifyDrive fuel) s = (some ⟨⟩, s.identified.withDrive a) ∧
      a.Tracks fuel .disk s.drive.identity s.drive.bytes .idle := by
  have ht := identifyDrive_spec h (by rw [hk]; decide) s rfl
  generalize exec (identifyDrive fuel) s = r at ht ⊢
  obtain ⟨_ | _, t⟩ := r
  · exact absurd (hk.symm.trans ht.1) (by decide)
  · obtain ⟨-, a, ha, rfl⟩ := ht
    exact ⟨a, rfl, ha⟩

theorem flatMap_range_two {α : Type} (f : ℕ → α) (n : ℕ) :
    (List.range n).flatMap (fun i => [f (i * 2), f (i * 2 + 1)]) = (List.range (n * 2)).map f := by
  induction n with
  | zero => rfl
  | succ n ih =>
    rw [List.range_succ, List.flatMap_append, ih, Nat.add_one_mul, List.range_succ, List.range_succ]
    simp

theorem modelOf_identity : modelOf ((List.range 256).map identity) =
    (List.range 40).map fun k => byte16 (identity (27 + k / 2)) (1 - k % 2) := by
  have hword (i : ℕ) (hi : i < 20) : ((List.range 256).map identity).getD (27 + i) 0 = identity (27 + i) := by
    rw [List.getD_eq_getElem _ _ (by rw [List.length_map, List.length_range]; omega), List.getElem_map,
      List.getElem_range]
  have hhigh (w : UInt16) : (w >>> 8).toUInt8 = byte16 w 1 := by
    rw [← UInt8.toNat_inj, UInt16.toNat_toUInt8, UInt16.toNat_shiftRight, byte16, UInt8.toNat_ofNat',
      Nat.shiftRight_eq_div_pow]
    rfl
  have hlow (w : UInt16) : (w &&& 0xFF).toUInt8 = byte16 w 0 := by
    rw [← UInt8.toNat_inj, UInt16.toNat_toUInt8, UInt16.toNat_and, byte16, UInt8.toNat_ofNat']
    show (w.toNat &&& 2 ^ 8 - 1) % 2 ^ 8 = _
    rw [Nat.and_two_pow_sub_one_eq_mod]
    omega
  rw [← flatMap_range_two _ 20]
  unfold modelOf
  simp only [hhigh, hlow]
  refine List.flatMap_congr fun i hi => ?_
  rw [hword i (List.mem_range.mp hi), Nat.mul_div_cancel i (by decide), Nat.mul_mod_left,
    show (i * 2 + 1) / 2 = i by omega, show (i * 2 + 1) % 2 = 1 by omega]

end Driver

/-- **What `identify_drive` finds**, for whatever is at the ports. Without a device, or at a packet device, it
panics. From a disk it takes the model, two characters of every word with the high byte first, and the lower
half of the number of sectors. -/
theorem identifyDrive_outcome (s : Driver) (fuel : ℕ) (h : s.Quiet fuel) :
    (s.drive.kind = .absent → exec (Driver.identifyDrive fuel) s =
      (none, { s with stopped := some (.panicked "drive does not exist") })) ∧
    (s.drive.kind = .packet → ∃ a, a.bytes = s.drive.bytes ∧ exec (Driver.identifyDrive fuel) s =
      (none, { s with
        drive := a, writableDrive := false, stopped := some (.panicked "not a writeable drive") })) ∧
    (s.drive.kind = .disk → ∃ a, a.bytes = s.drive.bytes ∧ a.phase = .idle ∧
      exec (Driver.identifyDrive fuel) s = (some ⟨⟩, { s with
        drive := a
        model := (List.range 40).map (fun k => byte16 (s.drive.identity (27 + k / 2)) (1 - k % 2)) ++ [0]
        sectorCount := s.drive.identity 60
        writableDrive := true })) := by
  refine ⟨Driver.exec_identifyDrive_absent, fun hk => ?_, fun hk => ?_⟩
  · have ht := Driver.identifyDrive_spec h (by rw [hk]; decide) s rfl
    generalize exec (Driver.identifyDrive fuel) s = r at ht ⊢
    obtain ⟨_ | _, t⟩ := r
    · obtain ⟨-, a, ha, rfl⟩ := ht
      exact ⟨a, ha, rfl⟩
    · exact absurd (hk.symm.trans ht.1) (by decide)
  · obtain ⟨a, hrun, ha⟩ := Driver.identifyDrive_disk h hk
    refine ⟨a, ha.bytes_eq, ha.phase_eq, ?_⟩
    rw [hrun, ← Driver.modelOf_identity]
    rfl

/-- A disk of 700 sectors that polls as busy for up to two times, and another two before it has data. -/
def slowDisk : Driver where
  drive := ⟨.disk, fun _ => 0, fun i => if i = 60 then 700 else if i = 61 then 0 else 0x4142, 0, 0, 0, 0, 0,
    .idle, 0, 0, fun i => i % 3⟩
  model := []
  sectorCount := 0
  writableDrive := false
  stopped := none

theorem slowDisk_quiet : slowDisk.Quiet 3 := ⟨⟨rfl, rfl⟩, by decide, fun i => Nat.mod_lt i (by decide)⟩

theorem slowDisk_identified : ∃ t, exec (Driver.identifyDrive 3) slowDisk = (some ⟨⟩, t) ∧
    t.sectorCount = 700 ∧ t.model.take 2 = [0x41, 0x42] := by
  obtain ⟨a, -, -, h⟩ := (identifyDrive_outcome slowDisk 3 slowDisk_quiet).2.2 rfl
  exact ⟨_, h, rfl, rfl⟩

/-! ## Boot and requests -/

/-- The bytes of the superblock. -/
def superblock (sectorCount : ℕ) : Buf :=
  let word (v : ℕ) (k : ℕ) : UInt8 := byte32 (UInt32.ofNat v) k
  fun k =>
    if k < 4 then byte32 magic k
    else if k < 6 then word 1 (k - 4)
    else if k < 10 then word sectorCount (k - 6)
    else if k < 14 then word 1 (k - 10)
    else if k < 18 then word 20 (k - 14)
    else word 512 (k - 18)

/-- A call of `read_sectors` or `write_sectors`. -/
inductive SectorRequest
  | read (lba : UInt32) (target : Buf) (size : ℕ)
  | write (lba : UInt32) (src : Buf) (size : ℕ)

/-- The sector behind the last one that is asked for. -/
def SectorRequest.stop : SectorRequest → ℕ
  | read lba _ size => lba.toNat + sectorsOf size
  | write lba _ size => lba.toNat + sectorsOf size

namespace Driver

/-- `init_superblock`. -/
def initSuperblock (fuel : ℕ) : Code Driver PUnit := do
  let s ← get
  writeSectors fuel 0 (superblock s.sectorCount.toNat) 20

/-- `ensure_root`. -/
def ensureRoot (fuel : ℕ) (junk : Junk) : Code Driver PUnit := do
  let table ← readSectors fuel 1 junk.buf 10240
  match findRoot (decodeTable table) with
  | some _ => return ⟨⟩
  | none => writeSectors fuel 1 (encodeTable rootTable) 10240

/-- `filesystem_init`. -/
def filesystemInit (fuel : ℕ) (junk : Junk) : Code Driver PUnit := do
  identifyDrive fuel
  initSuperblock fuel
  ensureRoot fuel junk

/-- One request: the target of a read afterwards. -/
def request (fuel : ℕ) : SectorRequest → Code Driver (Option Buf)
  | .read lba target size => do return some (← readSectors fuel lba target size)
  | .write lba src size => do
    writeSectors fuel lba src size
    return none

/-- `n` requests of a client, who looks at the earlier answers before each one. -/
def serve (fuel : ℕ) (client : List (Option Buf) → SectorRequest) : ℕ → Code Driver (List (Option Buf))
  | 0 => return []
  | n + 1 => do
    let answers ← serve fuel client n
    return answers ++ [← request fuel (client answers)]

end Driver

/-- One request on a `Drive`. -/
def Drive.request (d : Drive) : SectorRequest → Option Buf × Drive
  | .read lba target size => (some (readSectors d lba.toNat target size), d)
  | .write lba src size => (none, writeSectors d lba.toNat src size)

/-- The requests of a client on a `Drive`. -/
def Drive.serve (d : Drive) (client : List (Option Buf) → SectorRequest) : ℕ → List (Option Buf) × Drive
  | 0 => ([], d)
  | n + 1 =>
    let r := d.serve client n
    let r' := r.2.request (client r.1)
    (r.1 ++ [r'.1], r'.2)

@[simp] theorem Drive.request_sectorCount (d : Drive) (r : SectorRequest) :
    (d.request r).2.sectorCount = d.sectorCount := by
  cases r with
  | read => rfl
  | write lba src size => exact writeSectors_sectorCount

@[simp] theorem Drive.serve_sectorCount (d : Drive) (client : List (Option Buf) → SectorRequest) (n : ℕ) :
    (d.serve client n).2.sectorCount = d.sectorCount := by
  induction n with
  | zero => rfl
  | succ n ih => exact (Drive.request_sectorCount _ _).trans ih

namespace Driver

/-- The driver knows the drive. -/
def Knows (identity : ℕ → UInt16) (s : Driver) : Prop :=
  s.sectorCount = identity 60 ∧ s.writableDrive = true

/-- **One request.** -/
theorem request_spec (hs : s.Knows identity) (d : Drive) (hn : d.sectorCount = s.sectorCount.toNat)
    (r : SectorRequest) (hr : r.stop < 2 ^ 32) :
    Triple F (s.Resting fuel identity d.bytes) (request fuel r) fun x t =>
      x = (d.request r).1 ∧ s.Resting fuel identity (d.request r).2.bytes t := by
  cases r with
  | read lba target size =>
    refine (readSectors_spec d rfl hn hs.1 hr).bind fun t' => Triple.ret ?_
    rintro t ⟨rfl, ht⟩
    exact ⟨rfl, ht⟩
  | write lba src size =>
    exact (writeSectors_spec d hn hs.2 hs.1 hr).bind fun _ => Triple.ret fun t ht => ⟨rfl, ht⟩

/-- **All requests of a client.** -/
theorem serve_spec (hs : s.Knows identity) (d : Drive) (hn : d.sectorCount = s.sectorCount.toNat)
    (client : List (Option Buf) → SectorRequest) (hc : ∀ answers, (client answers).stop < 2 ^ 32) (n : ℕ) :
    Triple F (s.Resting fuel identity d.bytes) (serve fuel client n) fun answers t =>
      answers = (d.serve client n).1 ∧ s.Resting fuel identity (d.serve client n).2.bytes t := by
  induction n with
  | zero => exact Triple.ret fun t ht => ⟨rfl, ht⟩
  | succ n ih =>
    refine ih.bind fun answers => Triple.assume fun hanswers => ?_
    subst hanswers
    have hn' : (d.serve client n).2.sectorCount = s.sectorCount.toNat := by
      rw [Drive.serve_sectorCount, hn]
    refine (request_spec hs _ hn' _ (hc _)).bind fun x => Triple.ret ?_
    rintro t ⟨rfl, ht⟩
    exact ⟨rfl, ht⟩

theorem initSuperblock_spec (hs : s.Knows identity) (d : Drive) (hn : d.sectorCount = s.sectorCount.toNat) :
    Triple F (s.Resting fuel identity d.bytes) (initSuperblock fuel) fun _ =>
      s.Resting fuel identity (EitanOS.initSuperblock d).bytes := by
  refine Triple.get fun s₀ => ?_
  rintro t ⟨rfl, a, ha, rfl⟩
  have hcount : (s.withDrive a).sectorCount.toNat = d.sectorCount := hn.symm
  rw [hcount]
  exact writeSectors_spec d hn hs.2 hs.1 (by decide) _ ⟨a, ha, rfl⟩

theorem ensureRoot_spec (hs : s.Knows identity) (d : Drive) (hn : d.sectorCount = s.sectorCount.toNat)
    (junk : Junk) : Triple F (s.Resting fuel identity d.bytes) (ensureRoot fuel junk) fun _ =>
      s.Resting fuel identity (EitanOS.ensureRoot junk d).bytes := by
  have hstop : (1 : UInt32).toNat + sectorsOf 10240 < 2 ^ 32 := by
    rw [sectorsOf_eq (by decide)]
    decide
  unfold ensureRoot EitanOS.ensureRoot loadFileTable saveFileTable
  refine (readSectors_spec d rfl hn hs.1 hstop).bind fun table => ?_
  generalize hroot : findRoot (decodeTable table) = root
  refine Triple.assume fun htable => ?_
  have htable : table = EitanOS.readSectors d 1 junk.buf 10240 := htable
  rw [← htable, hroot]
  cases root with
  | some i => exact Triple.ret fun t ht => ht
  | none => exact writeSectors_spec d hn hs.2 hs.1 hstop

end Driver

theorem filesystemInit_sectorCount (junk : Junk) (d : Drive) :
    (filesystemInit junk d).sectorCount = d.sectorCount := by
  have hsuper : (initSuperblock d).sectorCount = d.sectorCount := writeSectors_sectorCount
  unfold filesystemInit ensureRoot
  split
  · exact hsuper
  · exact writeSectors_sectorCount.trans hsuper

/-- **Through the ports as on a `Drive`.** After boot, every client gets from the driver the answers that a
`Drive` gives, and leaves the same bytes behind, however slow the drive is. The driver never waits for
something that does not come, and makes no access that the drive is not ready for. -/
theorem session_refines (s : Driver) (fuel : ℕ) (junk : Junk) (client : List (Option Buf) → SectorRequest) (n : ℕ)
    (h : s.Quiet fuel) (hk : s.drive.kind = .disk) (hc : ∀ answers, (client answers).stop < 2 ^ 32) :
    ∃ a, exec (do Driver.filesystemInit fuel junk; Driver.serve fuel client n) s =
        (some ((filesystemInit junk ⟨s.drive.bytes, (s.drive.identity 60).toNat⟩).serve client n).1,
          s.identified.withDrive a) ∧
      a.bytes = ((filesystemInit junk ⟨s.drive.bytes, (s.drive.identity 60).toNat⟩).serve client n).2.bytes ∧
      a.phase.transfers = false := by
  set d : Drive := ⟨s.drive.bytes, (s.drive.identity 60).toNat⟩ with hd
  obtain ⟨a, hrun, ha⟩ := Driver.identifyDrive_disk h hk
  have hs : s.identified.Knows s.drive.identity := ⟨rfl, rfl⟩
  have hboot : Triple (fun _ => False) (s.identified.Resting fuel s.drive.identity d.bytes)
      (do Driver.initSuperblock fuel; Driver.ensureRoot fuel junk) fun _ =>
        s.identified.Resting fuel s.drive.identity (filesystemInit junk d).bytes :=
    (Driver.initSuperblock_spec hs d rfl).bind fun _ =>
      Driver.ensureRoot_spec hs (initSuperblock d) writeSectors_sectorCount junk
  obtain ⟨_, t, hinit, ht⟩ := hboot.exists_exec ⟨a, ⟨.idle, rfl, ha⟩, rfl⟩
  have hcount : (filesystemInit junk d).sectorCount = s.identified.sectorCount.toNat :=
    filesystemInit_sectorCount junk d
  obtain ⟨answers, t', hserve, rfl, a', ⟨p, hp, ha'⟩, rfl⟩ :=
    (Driver.serve_spec hs (filesystemInit junk d) hcount client hc n).exists_exec ht
  refine ⟨a', ?_, ha'.bytes_eq, ha'.phase_eq ▸ hp⟩
  rw [exec_bind_some, hserve]
  unfold Driver.filesystemInit
  rw [exec_bind_some hrun, hinit]

/-- Three bytes are written to sector 650, and read back if the answer to the write is in. -/
def storeThenLoad (answers : List (Option Buf)) : SectorRequest :=
  match answers with
  | [] => .write 650 (fun k => UInt8.ofNat (k + 7)) 3
  | _ => .read 650 (fun _ => 0) 3

theorem storeThenLoad_stop (answers : List (Option Buf)) : (storeThenLoad answers).stop < 2 ^ 32 := by
  cases answers with
  | nil =>
    show (650 : UInt32).toNat + sectorsOf 3 < 2 ^ 32
    decide
  | cons x l =>
    show (650 : UInt32).toNat + sectorsOf 3 < 2 ^ 32
    decide

theorem slowDisk_session : ∃ b t, exec (do Driver.filesystemInit 3 zeroJunk; Driver.serve 3 storeThenLoad 2)
    slowDisk = (some [none, some b], t) ∧ ∀ k < 3, b k = UInt8.ofNat (k + 7) := by
  obtain ⟨a, h, -⟩ := session_refines slowDisk 3 zeroJunk storeThenLoad 2 slowDisk_quiet rfl
    storeThenLoad_stop
  refine ⟨_, _, h, fun k hk => ?_⟩
  generalize hd : filesystemInit zeroJunk ⟨slowDisk.drive.bytes, (slowDisk.drive.identity 60).toNat⟩ = d
  have hcount : d.sectorCount = 700 := by
    rw [← hd]
    exact filesystemInit_sectorCount _ _
  have hload : (writeSectors d 650 (fun k => UInt8.ofNat (k + 7)) 3).sectorCount = 700 := by
    rw [writeSectors_sectorCount, hcount]
  show readSectors (writeSectors d 650 (fun k => UInt8.ofNat (k + 7)) 3) 650 (fun _ => 0) 3 k = _
  refine (readSectors_apply (by decide) (by rw [hload]; decide) (by rw [hload]; decide) hk).trans ?_
  exact writeSectors_inside (by decide) (by rw [hcount]; decide) (by rw [hcount]; decide) hk

end EitanOS
