import EitanOS.Disk.Transfer
import EitanOS.Lib.Prog

/-!
# The ATA driver and its drive (`filesystem.c`)

`identify_drive`, `read_sectors` and `write_sectors` talk to the drive through the ports `0x1F0` to `0x1F7`.
The drive is a machine of its own. It takes its time, it gives up commands it cannot carry out, and while it
is busy, or when it did not ask for data, a port access has no meaning: such an access is `refused` here.

* `Ata`, `Ata.inb`, `Ata.outb`, `Ata.inw`, `Ata.outw`: the drive at the other end of the ports, with any timing.
* `Driver`: the variables of `filesystem.c`, with the drive; `identifyDrive`, `readSectors`, `writeSectors`: its
  functions, port access by port access.
* `Driver.readSectors_spec`, `Driver.writeSectors_spec`: what one call does, for every timing.
-/

namespace EitanOS

open Bytes Prog

/-! ## The drive -/

/-- What answers at the ports. A packet device is a CD drive, for example. -/
inductive AtaKind
  | absent
  | packet
  | disk
deriving DecidableEq

/-- What the drive is doing. -/
inductive Phase
  | idle
  | aborted
  | identifying (word : ℕ)
  | reading (lba left word : ℕ)
  | writing (lba left word : ℕ)
deriving DecidableEq

/-- The drive exchanges words at the data port. -/
def Phase.transfers : Phase → Bool
  | idle => false
  | aborted => false
  | _ => true

/-- `busy` is how often the status still reads as busy, and `waits` how often it then does not ask for data
yet; `delays` are these numbers for whatever the drive does later. -/
structure Ata where
  kind : AtaKind
  bytes : Buf
  identity : ℕ → UInt16
  select : UInt8
  sectors : UInt8
  lbaLow : UInt8
  lbaMid : UInt8
  lbaHigh : UInt8
  phase : Phase
  busy : ℕ
  waits : ℕ
  delays : ℕ → ℕ

namespace Ata

/-- The number of sectors: words 60 and 61 of the identity. -/
def capacity (a : Ata) : ℕ := (a.identity 60).toNat + (a.identity 61).toNat * 2 ^ 16

/-- The 28-bit address in the registers. -/
def lba (a : Ata) : ℕ :=
  a.select.toNat % 16 * 2 ^ 24 + a.lbaHigh.toNat * 2 ^ 16 + a.lbaMid.toNat * 2 ^ 8 + a.lbaLow.toNat

/-- The number of sectors in the register: 0 stands for 256. -/
def count (a : Ata) : ℕ := if a.sectors = 0 then 256 else a.sectors.toNat

/-- The drive begins something new, which takes its time. -/
def start (a : Ata) (p : Phase) : Ata :=
  { a with phase := p, busy := a.delays 0, waits := a.delays 1, delays := fun i => a.delays (i + 2) }

/-- A read or write that goes past the end is given up. -/
def transfer (a : Ata) (p : Phase) : Ata :=
  if a.kind = .disk ∧ a.lba + a.count ≤ a.capacity then a.start p else a.start .aborted

/-- The command register. The driver asks for the second drive, and reads and writes with an LBA address;
anything else is not for this drive. -/
def command (a : Ata) (c : UInt8) : Option Ata :=
  if a.select &&& 0x10 = 0 then none
  else if c = 0xEC then
    if a.kind = .disk then some ({ a with lbaMid := 0, lbaHigh := 0 }.start (.identifying 0))
    else some ({ a with lbaMid := 0x14, lbaHigh := 0xEB }.start .aborted)
  else if a.select &&& 0x40 = 0 then none
  else if c = 0x20 then some (a.transfer (.reading a.lba a.count 0))
  else if c = 0x30 then some (a.transfer (.writing a.lba a.count 0))
  else some (a.start .aborted)

/-- The status register. -/
def status (a : Ata) : UInt8 × Ata :=
  if a.kind = .absent then (0, a)
  else if 0 < a.busy then (0x80, { a with busy := a.busy - 1 })
  else if a.phase.transfers then
    if 0 < a.waits then (0x40, { a with waits := a.waits - 1 }) else (0x48, a)
  else if a.phase = .aborted then (0x41, a)
  else (0x40, a)

/-- `io_inb`. -/
def inb (port : UInt16) (a : Ata) : Option (UInt8 × Ata) :=
  if port = 0x1F7 then some a.status
  else if a.kind = .absent then some (0, a)
  else if 0 < a.busy then none
  else if port = 0x1F4 then some (a.lbaMid, a)
  else if port = 0x1F5 then some (a.lbaHigh, a)
  else none

/-- `io_outb`. The registers are not for writing while the drive is busy or exchanges data. -/
def outb (port : UInt16) (v : UInt8) (a : Ata) : Option (PUnit × Ata) :=
  if a.kind = .absent then some (⟨⟩, a)
  else if 0 < a.busy ∨ a.phase.transfers then none
  else if port = 0x1F2 then some (⟨⟩, { a with sectors := v })
  else if port = 0x1F3 then some (⟨⟩, { a with lbaLow := v })
  else if port = 0x1F4 then some (⟨⟩, { a with lbaMid := v })
  else if port = 0x1F5 then some (⟨⟩, { a with lbaHigh := v })
  else if port = 0x1F6 then some (⟨⟩, { a with select := v })
  else if port = 0x1F7 then (a.command v).map fun a => (⟨⟩, a)
  else none

/-- The drive asks for data. -/
def DataRequest (a : Ata) : Prop := a.busy = 0 ∧ a.waits = 0

instance (a : Ata) : Decidable a.DataRequest := inferInstanceAs (Decidable (_ ∧ _))

/-- What follows word `word` of a sector that is read. -/
def afterRead (lba left word : ℕ) (a : Ata) : Ata :=
  if word + 1 < 256 then { a with phase := .reading lba left (word + 1) }
  else if 1 < left then a.start (.reading (lba + 1) (left - 1) 0)
  else { a with phase := .idle }

/-- What follows word `word` of a sector that is written: after the last one the drive is busy with it. -/
def afterWrite (lba left word : ℕ) (a : Ata) : Ata :=
  if word + 1 < 256 then { a with phase := .writing lba left (word + 1) }
  else if 1 < left then a.start (.writing (lba + 1) (left - 1) 0)
  else a.start .idle

/-- `io_inw(ATA_DATA)`. -/
def inw (a : Ata) : Option (UInt16 × Ata) :=
  if a.DataRequest then
    match a.phase with
    | .identifying word =>
      some (a.identity word, { a with phase := if word + 1 < 256 then .identifying (word + 1) else .idle })
    | .reading lba left word => some (le16 a.bytes (lba * 512 + word * 2), a.afterRead lba left word)
    | _ => none
  else none

/-- `io_outw(ATA_DATA, v)`. -/
def outw (v : UInt16) (a : Ata) : Option (PUnit × Ata) :=
  if a.DataRequest then
    match a.phase with
    | .writing lba left word =>
      some (⟨⟩, { a with bytes := putWord a.bytes (lba * 256 + word) v }.afterWrite lba left word)
    | _ => none
  else none

end Ata

/-! ## The driver -/

/-- Why the driver does not go on: `panic` was called, the status is polled without end, or the drive was
not ready for an access. -/
inductive Stop
  | panicked (message : String)
  | waiting
  | refused
deriving DecidableEq

/-- The variables of `filesystem.c`, and the drive. -/
structure Driver where
  drive : Ata
  model : List UInt8
  sectorCount : UInt16
  writableDrive : Bool
  stopped : Option Stop

namespace Driver

/-- The driver with another state of the drive behind the ports. -/
def withDrive (s : Driver) (a : Ata) : Driver := { s with drive := a }

/-- The driver goes no further. -/
def stop {α : Type} (r : Stop) : Code Driver α := do
  modify fun s => { s with stopped := some r }
  failure

/-- A port access. -/
def access {α : Type} (f : Ata → Option (α × Ata)) : Code Driver α := do
  let s ← get
  match f s.drive with
  | some (v, a) => do
    set (s.withDrive a)
    return v
  | none => stop .refused

/-- `wait_busy`, for as long as it is watched. -/
def waitBusy : ℕ → Code Driver PUnit
  | 0 => stop .waiting
  | fuel + 1 => do
    let status ← access (Ata.inb 0x1F7)
    if status &&& 0x80 ≠ 0 then waitBusy fuel else return ⟨⟩

/-- `wait_data_request_ready`, for as long as it is watched. -/
def waitDataRequestReady : ℕ → Code Driver PUnit
  | 0 => stop .waiting
  | fuel + 1 => do
    let status ← access (Ata.inb 0x1F7)
    if status &&& 0x08 = 0 then waitDataRequestReady fuel else return ⟨⟩

/-- `io_inb(ATA_LBA_MID) != 0 || io_inb(ATA_LBA_HIGH) != 0`. -/
def notAta : Code Driver Bool := do
  let mid ← access (Ata.inb 0x1F4)
  if mid ≠ 0 then return true
  else do
    let high ← access (Ata.inb 0x1F5)
    return high ≠ 0

/-- `identify_drive` up to the IDENTIFY command. -/
def sendIdentify : Code Driver PUnit := do
  access (Ata.outb 0x1F6 0b10110000)
  access (Ata.outb 0x1F2 0)
  access (Ata.outb 0x1F3 0)
  access (Ata.outb 0x1F4 0)
  access (Ata.outb 0x1F5 0)
  access (Ata.outb 0x1F7 0xEC)

/-- The characters of `model`: of every word the high byte comes first. -/
def modelOf (data : List UInt16) : List UInt8 :=
  (List.range 20).flatMap fun i =>
    [(data.getD (27 + i) 0 >>> 8).toUInt8, (data.getD (27 + i) 0 &&& 0xFF).toUInt8]

/-- `identify_drive` from the first wait for data on. -/
def storeIdentity (fuel : ℕ) : Code Driver PUnit := do
  waitDataRequestReady fuel
  let data ← (List.range 256).foldlM (fun data _ => do return data ++ [← access Ata.inw]) []
  modify fun s => { s with model := modelOf data ++ [0], sectorCount := data.getD 60 0 }

/-- `identify_drive`. -/
def identifyDrive (fuel : ℕ) : Code Driver PUnit := do
  sendIdentify
  let status ← access (Ata.inb 0x1F7)
  if status = 0 then stop (.panicked "drive does not exist")
  else do
    waitBusy fuel
    modify fun s => { s with writableDrive := true }
    if ← notAta then do
      modify fun s => { s with writableDrive := false }
      stop (.panicked "not a writeable drive")
    else storeIdentity fuel

/-- What `read_sectors` and `write_sectors` write to the registers. -/
def sendCommand (lba : UInt32) (count : ℕ) (c : UInt8) : Code Driver PUnit := do
  access (Ata.outb 0x1F6 ((0b11110000 : UInt8) ||| (lba >>> 24 &&& 0b1111).toUInt8))
  access (Ata.outb 0x1F2 (UInt8.ofNat count))
  access (Ata.outb 0x1F3 lba.toUInt8)
  access (Ata.outb 0x1F4 (lba >>> 8).toUInt8)
  access (Ata.outb 0x1F5 (lba >>> 16).toUInt8)
  access (Ata.outb 0x1F7 c)

/-- What `read_sectors` does with word `wordIdx`. -/
def storeWord (size wordIdx : ℕ) (t : Buf) (data : UInt16) : Buf :=
  let byteIdx := wordIdx * 2
  if byteIdx < size then
    if size ≤ byteIdx + 1 then putWord t wordIdx (data &&& 0xFF) else putWord t wordIdx data
  else t

/-- The body of the outer loop of `read_sectors`. -/
def readSector (fuel size j : ℕ) (t : Buf) : Code Driver Buf := do
  waitBusy fuel
  waitDataRequestReady fuel
  (List.range 256).foldlM (fun t i => do return storeWord size (j * 256 + i) t (← access Ata.inw)) t

/-- `read_sectors(lba, target, size)`: the target afterwards. -/
def readSectors (fuel : ℕ) (lba : UInt32) (target : Buf) (size : ℕ) : Code Driver Buf := do
  let s ← get
  let count := sectorsOf size
  if count < 1 ∨ s.sectorCount.toNat ≤ (lba.toNat + count) % 2 ^ 32 then return target
  else do
    waitBusy fuel
    sendCommand lba count 0x20
    (List.range count).foldlM (fun t j => readSector fuel size j t) target

/-- The body of the outer loop of `write_sectors`. -/
def writeSector (fuel : ℕ) (src : Buf) (size j : ℕ) : Code Driver PUnit := do
  waitBusy fuel
  waitDataRequestReady fuel
  (List.range 256).forM fun i => access (Ata.outw (Pio.sourceWord src size (j * 256 + i)))

/-- `write_sectors(lba, src, size)`. -/
def writeSectors (fuel : ℕ) (lba : UInt32) (src : Buf) (size : ℕ) : Code Driver PUnit := do
  let s ← get
  let count := sectorsOf size
  if s.writableDrive = false ∨ count < 1 ∨ s.sectorCount.toNat ≤ (lba.toNat + count) % 2 ^ 32 then
    return ⟨⟩
  else do
    waitBusy fuel
    sendCommand lba count 0x30
    (List.range count).forM fun j => writeSector fuel src size j

end Driver

/-! ## One access -/

variable {α : Type} {s : Driver} {a a' : Ata} {f : Ata → Option (α × Ata)} {v : α} {F : Driver → Prop}

namespace Driver

theorem exec_access (h : f s.drive = some (v, a)) :
    exec (access f) s = (some v, s.withDrive a) := by
  unfold access
  rw [exec_get_bind, h]
  rfl

/-- The drive satisfies `R`, and the variables of the driver are those of `s`. -/
def On (s : Driver) (R : Ata → Prop) (t : Driver) : Prop := ∃ a, R a ∧ t = s.withDrive a

/-- **An access** that the drive is ready for. -/
theorem triple_access {R : Ata → Prop} {Q : α → Ata → Prop}
    (h : ∀ a, R a → ∃ v a', f a = some (v, a') ∧ Q v a') :
    Triple F (s.On R) (access f) fun v => s.On (Q v) := by
  rintro t ⟨a, ha, rfl⟩
  obtain ⟨v, a', hf, ha'⟩ := h a ha
  rw [exec_access (s := s.withDrive a) hf]
  exact ⟨a', ha', rfl⟩

end Driver

/-! ## Timing -/

/-- There is a drive, it holds `b` and is in phase `p`, and it is never busy or without data for `fuel` polls or more. -/
structure Ata.Tracks (fuel : ℕ) (kind : AtaKind) (identity : ℕ → UInt16) (b : Buf) (p : Phase) (a : Ata) :
    Prop where
  present : kind ≠ .absent
  kind_eq : a.kind = kind
  identity_eq : a.identity = identity
  bytes_eq : a.bytes = b
  phase_eq : a.phase = p
  busy_lt : a.busy < fuel
  waits_lt : a.waits < fuel
  delays_lt : ∀ i, a.delays i < fuel

variable {fuel : ℕ} {kind : AtaKind} {identity : ℕ → UInt16} {b : Buf} {p q : Phase}

namespace Ata

theorem Tracks.start (h : a.Tracks fuel kind identity b p) : (a.start q).Tracks fuel kind identity b q where
  present := h.present
  kind_eq := h.kind_eq
  identity_eq := h.identity_eq
  bytes_eq := h.bytes_eq
  phase_eq := rfl
  busy_lt := h.delays_lt 0
  waits_lt := h.delays_lt 1
  delays_lt i := h.delays_lt (i + 2)

theorem Tracks.move (h : a.Tracks fuel kind identity b p) : { a with phase := q }.Tracks fuel kind identity b q :=
  { h with phase_eq := rfl }

/-- **A poll while the drive is busy** counts down. -/
theorem Tracks.status_busy (h : a.Tracks fuel kind identity b p) (hb : 0 < a.busy) :
    a.status = (0x80, { a with busy := a.busy - 1 }) ∧
      { a with busy := a.busy - 1 }.Tracks fuel kind identity b p := by
  refine ⟨?_, { h with busy_lt := Nat.lt_of_le_of_lt (Nat.sub_le _ _) h.busy_lt }⟩
  unfold status
  rw [h.kind_eq, if_neg h.present, if_pos hb]

/-- **A poll before the drive asks for data** counts down as well. -/
theorem Tracks.status_waits (h : a.Tracks fuel kind identity b p) (hp : p.transfers) (hb : a.busy = 0)
    (hw : 0 < a.waits) : a.status = (0x40, { a with waits := a.waits - 1 }) ∧
      { a with waits := a.waits - 1 }.Tracks fuel kind identity b p := by
  refine ⟨?_, { h with waits_lt := Nat.lt_of_le_of_lt (Nat.sub_le _ _) h.waits_lt }⟩
  unfold status
  rw [h.kind_eq, h.phase_eq, hb, if_neg h.present, if_neg (by decide), if_pos hp, if_pos hw]

theorem Tracks.status_ready (h : a.Tracks fuel kind identity b p) (hp : p.transfers) (hd : a.DataRequest) :
    a.status = (0x48, a) := by
  unfold status
  rw [h.kind_eq, h.phase_eq, hd.1, hd.2, if_neg h.present, if_neg (by decide), if_pos hp,
    if_neg (by decide)]

theorem Tracks.status_rest (h : a.Tracks fuel kind identity b p) (hp : p.transfers = false)
    (hb : a.busy = 0) : a.status = (if p = .aborted then 0x41 else 0x40, a) := by
  unfold status
  rw [h.kind_eq, h.phase_eq, hb, hp, if_neg h.present, if_neg (by decide), if_neg (by decide)]
  split_ifs <;> rfl

theorem Tracks.status_free (h : a.Tracks fuel kind identity b p) (hb : a.busy = 0) :
    ∃ v a', a.status = (v, a') ∧ v ≠ 0 ∧ v &&& 0x80 = 0 ∧ a'.Tracks fuel kind identity b p ∧
      a'.busy = 0 := by
  by_cases hp : p.transfers
  · by_cases hw : 0 < a.waits
    · obtain ⟨hs, h'⟩ := h.status_waits hp hb hw
      exact ⟨_, _, hs, by decide, by decide, h', hb⟩
    · exact ⟨_, _, h.status_ready hp ⟨hb, by omega⟩, by decide, by decide, h, hb⟩
  · refine ⟨_, _, h.status_rest (by simpa using hp) hb, ?_, ?_, h, hb⟩ <;> split_ifs <;> decide

theorem status_registers (a : Ata) : a.status.2.lbaMid = a.lbaMid ∧ a.status.2.lbaHigh = a.lbaHigh := by
  unfold status
  split_ifs <;> exact ⟨rfl, rfl⟩

end Ata

namespace Driver

/-- **`wait_busy` returns** once the drive is no longer busy. -/
theorem waitBusy_spec :
    Triple F (s.On (Ata.Tracks fuel kind identity b p)) (waitBusy fuel)
      fun _ => s.On fun a => a.Tracks fuel kind identity b p ∧ a.busy = 0 := by
  suffices h : ∀ n, Triple F (s.On fun a => a.Tracks fuel kind identity b p ∧ a.busy < n) (waitBusy n)
      fun _ => s.On fun a => a.Tracks fuel kind identity b p ∧ a.busy = 0 from
    (h fuel).pre fun t ⟨a, ha, ht⟩ => ⟨a, ⟨ha, ha.busy_lt⟩, ht⟩
  intro n
  induction n with
  | zero =>
    rintro t ⟨a, ⟨-, hlt⟩, -⟩
    omega
  | succ n ih =>
    -- one poll either finds the drive free, or leaves one poll less to wait for
    refine (triple_access (Q := fun v a => a.Tracks fuel kind identity b p ∧
      if v &&& 0x80 = 0 then a.busy = 0 else a.busy < n) ?_).bind fun v => Triple.ite ?_ ?_
    · rintro a ⟨ha, hlt⟩
      by_cases hb : a.busy = 0
      · obtain ⟨v, a', hs, -, hv, ha', hb'⟩ := ha.status_free hb
        refine ⟨v, a', congrArg some hs, ha', ?_⟩
        rwa [if_pos hv]
      · obtain ⟨hs, ha'⟩ := ha.status_busy (by omega)
        refine ⟨_, _, congrArg some hs, ha', ?_⟩
        rw [if_neg (by decide)]
        dsimp only
        omega
    · intro hv
      refine ih.pre ?_
      rintro t ⟨a, ⟨ha, hlt⟩, ht⟩
      rw [if_neg hv] at hlt
      exact ⟨a, ⟨ha, hlt⟩, ht⟩
    · intro hv
      refine Triple.ret ?_
      rintro t ⟨a, ⟨ha, hb⟩, ht⟩
      rw [if_pos (not_not.mp hv)] at hb
      exact ⟨a, ⟨ha, hb⟩, ht⟩

/-- **`wait_data_request_ready` returns** when the drive has data to exchange. -/
theorem waitDataRequestReady_spec (hp : p.transfers) :
    Triple F (s.On fun a => a.Tracks fuel kind identity b p ∧ a.busy = 0) (waitDataRequestReady fuel)
      fun _ => s.On fun a => a.Tracks fuel kind identity b p ∧ a.DataRequest := by
  suffices h : ∀ n, Triple F (s.On fun a => a.Tracks fuel kind identity b p ∧ a.busy = 0 ∧ a.waits < n)
      (waitDataRequestReady n) fun _ => s.On fun a => a.Tracks fuel kind identity b p ∧ a.DataRequest from
    (h fuel).pre fun t ⟨a, ⟨ha, hb⟩, ht⟩ => ⟨a, ⟨ha, hb, ha.waits_lt⟩, ht⟩
  intro n
  induction n with
  | zero =>
    rintro t ⟨a, ⟨-, -, hlt⟩, -⟩
    omega
  | succ n ih =>
    refine (triple_access (Q := fun v a => a.Tracks fuel kind identity b p ∧
      if v &&& 0x08 = 0 then a.busy = 0 ∧ a.waits < n else a.DataRequest) ?_).bind fun v =>
        Triple.ite ?_ ?_
    · rintro a ⟨ha, hb, hlt⟩
      by_cases hw : a.waits = 0
      · refine ⟨_, a, congrArg some (ha.status_ready hp ⟨hb, hw⟩), ha, ?_⟩
        rw [if_neg (by decide)]
        exact ⟨hb, hw⟩
      · obtain ⟨hs, ha'⟩ := ha.status_waits hp hb (by omega)
        refine ⟨_, _, congrArg some hs, ha', ?_⟩
        rw [if_pos (by decide)]
        refine ⟨hb, ?_⟩
        dsimp only
        omega
    · intro hv
      refine ih.pre ?_
      rintro t ⟨a, ⟨ha, hlt⟩, ht⟩
      rw [if_pos hv] at hlt
      exact ⟨a, ⟨ha, hlt⟩, ht⟩
    · intro hv
      refine Triple.ret ?_
      rintro t ⟨a, ⟨ha, hd⟩, ht⟩
      rw [if_neg hv] at hd
      exact ⟨a, ⟨ha, hd⟩, ht⟩

end Driver

/-! ## The registers -/

namespace Ata

/-- The drive takes what is written to its registers. -/
def Rests (a : Ata) : Prop := a.kind ≠ .absent ∧ a.busy = 0 ∧ a.phase.transfers = false

theorem Tracks.rests (h : a.Tracks fuel kind identity b p) (hp : p.transfers = false) (hb : a.busy = 0) :
    a.Rests :=
  ⟨h.kind_eq ▸ h.present, hb, h.phase_eq ▸ hp⟩

/-- The registers as the driver sets them before a command. -/
def addressed (a : Ata) (lba : UInt32) (count : ℕ) : Ata :=
  { a with
    select := (0b11110000 : UInt8) ||| (lba >>> 24 &&& 0b1111).toUInt8
    sectors := UInt8.ofNat count
    lbaLow := lba.toUInt8
    lbaMid := (lba >>> 8).toUInt8
    lbaHigh := (lba >>> 16).toUInt8 }

variable {port : UInt16} {w : UInt8} {lba : UInt32} {count : ℕ}

theorem Tracks.addressed (h : a.Tracks fuel kind identity b p) :
    (a.addressed lba count).Tracks fuel kind identity b p := { h with }

theorem Rests.outb_eq (h : a.Rests) : a.outb port w =
    if port = 0x1F2 then some (⟨⟩, { a with sectors := w })
    else if port = 0x1F3 then some (⟨⟩, { a with lbaLow := w })
    else if port = 0x1F4 then some (⟨⟩, { a with lbaMid := w })
    else if port = 0x1F5 then some (⟨⟩, { a with lbaHigh := w })
    else if port = 0x1F6 then some (⟨⟩, { a with select := w })
    else if port = 0x1F7 then (a.command w).map fun a => (⟨⟩, a)
    else none := by
  obtain ⟨hk, hb, hp⟩ := h
  unfold outb
  rw [if_neg hk, hb, hp, if_neg (by decide)]

theorem Rests.outb_sectors (h : a.Rests) : a.outb 0x1F2 w = some (⟨⟩, { a with sectors := w }) := h.outb_eq

theorem Rests.outb_lbaLow (h : a.Rests) : a.outb 0x1F3 w = some (⟨⟩, { a with lbaLow := w }) := h.outb_eq

theorem Rests.outb_lbaMid (h : a.Rests) : a.outb 0x1F4 w = some (⟨⟩, { a with lbaMid := w }) := h.outb_eq

theorem Rests.outb_lbaHigh (h : a.Rests) : a.outb 0x1F5 w = some (⟨⟩, { a with lbaHigh := w }) := h.outb_eq

theorem Rests.outb_select (h : a.Rests) : a.outb 0x1F6 w = some (⟨⟩, { a with select := w }) := h.outb_eq

theorem Rests.outb_command (h : a.Rests) (hc : a.command w = some a') :
    a.outb 0x1F7 w = some (⟨⟩, a') := by
  have hout : a.outb 0x1F7 w = (a.command w).map fun a => (⟨⟩, a) := h.outb_eq
  rw [hout, hc]
  rfl

theorem select_bits (x : UInt8) (hx : x.toNat < 16) :
    (0b11110000 ||| x) &&& 0x10 ≠ 0 ∧ (0b11110000 ||| x) &&& 0x40 ≠ 0 ∧
      ((0b11110000 ||| x).toNat % 16 = x.toNat) := by
  have hall : ∀ k < 16, ((0b11110000 : UInt8) ||| UInt8.ofNat k) &&& 0x10 ≠ 0 ∧
      ((0b11110000 : UInt8) ||| UInt8.ofNat k) &&& 0x40 ≠ 0 ∧
        (((0b11110000 : UInt8) ||| UInt8.ofNat k).toNat % 16 = k) := by decide
  have h := hall x.toNat hx
  rwa [UInt8.ofNat_toNat] at h

theorem toNat_highBits : (lba >>> 24 &&& 0b1111).toUInt8.toNat = lba.toNat / 2 ^ 24 % 16 := by
  rw [UInt32.toNat_toUInt8, UInt32.toNat_and, UInt32.toNat_shiftRight]
  show (lba.toNat >>> 24 &&& 15) % 2 ^ 8 = _
  rw [Nat.shiftRight_eq_div_pow, Nat.and_two_pow_sub_one_eq_mod _ 4]
  omega

/-- **The drive is given the low 28 bits of the address.** -/
theorem addressed_lba : (a.addressed lba count).lba = lba.toNat % 2 ^ 28 := by
  have hlt : (lba >>> 24 &&& 0b1111).toUInt8.toNat < 16 := by
    rw [toNat_highBits]
    omega
  unfold Ata.lba addressed
  dsimp only
  rw [(select_bits _ hlt).2.2, toNat_highBits]
  simp only [UInt32.toNat_toUInt8, UInt32.toNat_shiftRight, Nat.shiftRight_eq_div_pow]
  show lba.toNat / 2 ^ 24 % 16 * 2 ^ 24 + lba.toNat / 2 ^ 16 % 2 ^ 8 * 2 ^ 16 +
    lba.toNat / 2 ^ 8 % 2 ^ 8 * 2 ^ 8 + lba.toNat % 2 ^ 8 = _
  omega

theorem addressed_count (h₁ : 1 ≤ count) (h₂ : count < 256) : (a.addressed lba count).count = count := by
  have hn : (UInt8.ofNat count).toNat = count := by
    rw [UInt8.toNat_ofNat', Nat.mod_eq_of_lt h₂]
  unfold Ata.count addressed
  dsimp only
  rw [if_neg, hn]
  intro h
  rw [h, UInt8.toNat_zero] at hn
  omega

theorem transfer_addressed (hk : a.kind = .disk) (h₁ : 1 ≤ count) (h₂ : count < 256) :
    (a.addressed lba count).transfer q = (a.addressed lba count).start
      (if lba.toNat % 2 ^ 28 + count ≤ a.capacity then q else .aborted) := by
  have hcap : (a.addressed lba count).capacity = a.capacity := rfl
  have hkind : (a.addressed lba count).kind = .disk := hk
  unfold transfer
  simp only [addressed_lba, addressed_count h₁ h₂, hcap, hkind, true_and]
  split_ifs <;> rfl

/-- **A read or write command** starts, or is given up if it goes past the end. -/
theorem addressed_command (hk : a.kind = .disk) (h₁ : 1 ≤ count) (h₂ : count < 256) :
    (a.addressed lba count).command 0x20 = some ((a.addressed lba count).start
      (if lba.toNat % 2 ^ 28 + count ≤ a.capacity then .reading (lba.toNat % 2 ^ 28) count 0
        else .aborted)) ∧
    (a.addressed lba count).command 0x30 = some ((a.addressed lba count).start
      (if lba.toNat % 2 ^ 28 + count ≤ a.capacity then .writing (lba.toNat % 2 ^ 28) count 0
        else .aborted)) := by
  have hlt : (lba >>> 24 &&& 0b1111).toUInt8.toNat < 16 := by
    rw [toNat_highBits]
    omega
  obtain ⟨hslave, hlba, -⟩ := select_bits _ hlt
  have hslave : (a.addressed lba count).select &&& 0x10 ≠ 0 := hslave
  have hlba : (a.addressed lba count).select &&& 0x40 ≠ 0 := hlba
  constructor
  · unfold command
    rw [if_neg hslave, if_neg (by decide), if_neg hlba, if_pos rfl, transfer_addressed hk h₁ h₂,
      addressed_lba, addressed_count h₁ h₂]
  · unfold command
    rw [if_neg hslave, if_neg (by decide), if_neg hlba, if_neg (by decide), if_pos rfl,
      transfer_addressed hk h₁ h₂, addressed_lba, addressed_count h₁ h₂]

end Ata

namespace Driver

variable {lba : UInt32} {count : ℕ} {c : UInt8}

theorem exec_sendCommand (h : s.drive.Rests) (hc : (s.drive.addressed lba count).command c = some a) :
    exec (sendCommand lba count c) s = (some ⟨⟩, s.withDrive a) := by
  unfold sendCommand
  rw [exec_bind_some (exec_access h.outb_select),
    exec_bind_some (exec_access (Ata.Rests.outb_sectors (by exact h))),
    exec_bind_some (exec_access (Ata.Rests.outb_lbaLow (by exact h))),
    exec_bind_some (exec_access (Ata.Rests.outb_lbaMid (by exact h))),
    exec_bind_some (exec_access (Ata.Rests.outb_lbaHigh (by exact h)))]
  exact exec_access (Ata.Rests.outb_command (a := s.drive.addressed lba count) h hc)

/-- The state of `s` and a drive that rests with the bytes `b`. -/
def Resting (fuel : ℕ) (identity : ℕ → UInt16) (b : Buf) (s : Driver) : Driver → Prop :=
  s.On fun a => ∃ p, p.transfers = false ∧ a.Tracks fuel .disk identity b p

theorem waitBusy_rests : Triple F (s.Resting fuel identity b) (waitBusy fuel)
    fun _ => s.On fun a => a.Rests ∧ ∃ p, a.Tracks fuel .disk identity b p := by
  rintro t ⟨a, ⟨p, hp, ha⟩, rfl⟩
  refine waitBusy_spec.post ?_ _ ⟨a, ha, rfl⟩
  rintro _ t ⟨a, ⟨ha, hb⟩, ht⟩
  exact ⟨a, ⟨ha.rests hp hb, p, ha⟩, ht⟩

/-- **The registers are set and the command is sent.** -/
theorem sendCommand_spec (hc : ∀ a : Ata, a.kind = .disk → a.identity = identity →
      (a.addressed lba count).command c = some ((a.addressed lba count).start q)) :
    Triple F (s.On fun a => a.Rests ∧ ∃ p, a.Tracks fuel .disk identity b p) (sendCommand lba count c)
      fun _ => s.On (Ata.Tracks fuel .disk identity b q) := by
  rintro t ⟨a, ⟨hr, p, ha⟩, rfl⟩
  rw [exec_sendCommand (s := s.withDrive a) hr (hc a ha.kind_eq ha.identity_eq)]
  exact ⟨_, ha.addressed.start, rfl⟩

end Driver

/-! ## Sectors -/

/-- Where the drive is after `i` words of a sector that is read. -/
def Phase.readAt (lba left i : ℕ) : Phase :=
  if i < 256 then .reading lba left i else if 1 < left then .reading (lba + 1) (left - 1) 0 else .idle

/-- Where the drive is after `i` words of a sector that is written. -/
def Phase.writeAt (lba left i : ℕ) : Phase :=
  if i < 256 then .writing lba left i else if 1 < left then .writing (lba + 1) (left - 1) 0 else .idle

variable {lba left size i j n : ℕ} {t target src : Buf}

/-- **One word is read.** -/
theorem Ata.Tracks.inw_reading (h : a.Tracks fuel kind identity b (.readAt lba left i)) (hi : i < 256)
    (hd : a.DataRequest) : ∃ a', a.inw = some (le16 b (lba * 512 + i * 2), a') ∧
      a'.Tracks fuel kind identity b (.readAt lba left (i + 1)) ∧ (i + 1 < 256 → a'.DataRequest) := by
  have hp := h.phase_eq
  rw [Phase.readAt, if_pos hi] at hp
  refine ⟨a.afterRead lba left i, ?_, ?_⟩
  · unfold Ata.inw
    rw [if_pos hd, hp, ← h.bytes_eq]
  · unfold Ata.afterRead Phase.readAt
    split_ifs with hw hl
    · exact ⟨h.move, fun _ => hd⟩
    · exact ⟨h.start, fun hlt => (hw hlt).elim⟩
    · exact ⟨h.move, fun hlt => (hw hlt).elim⟩

/-- **One word is written.** -/
theorem Ata.Tracks.outw_writing {w : UInt16} (h : a.Tracks fuel kind identity b (.writeAt lba left i))
    (hi : i < 256) (hd : a.DataRequest) : ∃ a', a.outw w = some (⟨⟩, a') ∧
      a'.Tracks fuel kind identity (putWord b (lba * 256 + i) w) (.writeAt lba left (i + 1)) ∧
      (i + 1 < 256 → a'.DataRequest) := by
  have hp := h.phase_eq
  rw [Phase.writeAt, if_pos hi] at hp
  have hb : { a with bytes := putWord a.bytes (lba * 256 + i) w }.Tracks fuel kind identity
      (putWord b (lba * 256 + i) w) (.writeAt lba left i) := { h with bytes_eq := by rw [← h.bytes_eq] }
  refine ⟨_, by unfold Ata.outw; rw [if_pos hd, hp], ?_⟩
  unfold Ata.afterWrite Phase.writeAt
  split_ifs with hw hl
  · exact ⟨hb.move, fun _ => hd⟩
  · exact ⟨hb.start, fun hlt => (hw hlt).elim⟩
  · exact ⟨hb.start, fun hlt => (hw hlt).elim⟩

namespace Driver

/-- **A sector is read**: the target changes as with the words of the medium. -/
theorem readSector_spec (d : Drive) (hd : d.bytes = b) :
    Triple F (s.On (Ata.Tracks fuel kind identity b (.readAt (lba + j) left 0))) (readSector fuel size j t)
      fun t' t₁ => t' = (List.range 256).foldl (Pio.readWord d lba size j) t ∧
        s.On (Ata.Tracks fuel kind identity b (.readAt (lba + j) left 256)) t₁ := by
  have hp : (Phase.readAt (lba + j) left 0).transfers := rfl
  refine waitBusy_spec.bind fun _ => (waitDataRequestReady_spec hp).bind fun _ => ?_
  refine ((Triple.foldlM_range (n := 256) (b := t) (I := fun i t' t₁ =>
    t' = (List.range i).foldl (Pio.readWord d lba size j) t ∧ s.On (fun a =>
      a.Tracks fuel kind identity b (.readAt (lba + j) left i) ∧ (i < 256 → a.DataRequest)) t₁) ?_).pre ?_).post ?_
  · intro i hi t'
    refine Triple.assume fun ht => ?_
    refine Triple.bind (triple_access (Q := fun v a => v = le16 b ((lba + j) * 512 + i * 2) ∧
      a.Tracks fuel kind identity b (.readAt (lba + j) left (i + 1)) ∧ (i + 1 < 256 → a.DataRequest)) ?_)
      fun v => Triple.ret ?_
    · rintro a ⟨ha, hr⟩
      obtain ⟨a', hf, ha'⟩ := ha.inw_reading hi (hr hi)
      exact ⟨_, a', hf, rfl, ha'⟩
    · rintro t₁ ⟨a, ⟨rfl, ha⟩, rfl⟩
      refine ⟨?_, a, ha, rfl⟩
      rw [List.range_succ, List.foldl_append, ← ht, ← hd]
      rfl
  · rintro t₁ ⟨a, ⟨ha, hr⟩, rfl⟩
    exact ⟨rfl, a, ⟨ha, fun _ => hr⟩, rfl⟩
  · rintro t' t₁ ⟨ht, a, ⟨ha, -⟩, rfl⟩
    exact ⟨ht, a, ha, rfl⟩

/-- **A sector is written**: the medium changes word by word. -/
theorem writeSector_spec (d : Drive) :
    Triple F (s.On (Ata.Tracks fuel kind identity d.bytes (.writeAt (lba + j) left 0)))
      (writeSector fuel src size j) fun _ => s.On (Ata.Tracks fuel kind identity
        ((List.range 256).foldl (Pio.writeWord lba src size j) d).bytes (.writeAt (lba + j) left 256)) := by
  have hp : (Phase.writeAt (lba + j) left 0).transfers := rfl
  refine waitBusy_spec.bind fun _ => (waitDataRequestReady_spec hp).bind fun _ => ?_
  refine ((Triple.forM_range (n := 256) (I := fun i => s.On fun a => a.Tracks fuel kind identity
    ((List.range i).foldl (Pio.writeWord lba src size j) d).bytes (.writeAt (lba + j) left i) ∧
      (i < 256 → a.DataRequest)) ?_).pre ?_).post ?_
  · intro i hi
    refine triple_access ?_
    rintro a ⟨ha, hr⟩
    obtain ⟨a', hf, ha', hr'⟩ := ha.outw_writing hi (hr hi)
    refine ⟨⟨⟩, a', hf, ?_, hr'⟩
    rw [List.range_succ, List.foldl_append]
    exact ha'
  · rintro t₁ ⟨a, ⟨ha, hr⟩, rfl⟩
    exact ⟨a, ⟨ha, fun _ => hr⟩, rfl⟩
  · rintro _ t₁ ⟨a, ⟨ha, -⟩, rfl⟩
    exact ⟨a, ha, rfl⟩

end Driver

/-! ## Whole transfers -/

theorem Phase.readAt_end (h : left = n + 1) : Phase.readAt lba left 256 =
    if 0 < n then .readAt (lba + 1) n 0 else .idle := by
  unfold readAt
  rw [if_neg (by decide), h]
  simp only [Nat.lt_add_left_iff_pos, Nat.add_sub_cancel]
  rfl

theorem Phase.writeAt_end (h : left = n + 1) : Phase.writeAt lba left 256 =
    if 0 < n then .writeAt (lba + 1) n 0 else .idle := by
  unfold writeAt
  rw [if_neg (by decide), h]
  simp only [Nat.lt_add_left_iff_pos, Nat.add_sub_cancel]
  rfl

theorem sectorsOf_lt (size : ℕ) : sectorsOf size < 256 := by
  unfold sectorsOf
  split_ifs
  · exact Nat.mod_lt _ (by decide)
  · decide

namespace Driver

variable {at₀ : UInt32}

theorem fits (hsc : s.sectorCount = identity 60) (ha : a.identity = identity)
    (hwrap : at₀.toNat + sectorsOf size < 2 ^ 32)
    (hlt : (at₀.toNat + sectorsOf size) % 2 ^ 32 < s.sectorCount.toNat) :
    at₀.toNat % 2 ^ 28 + sectorsOf size ≤ a.capacity := by
  have hcap : s.sectorCount.toNat ≤ a.capacity := by
    rw [hsc, Ata.capacity, ha]
    omega
  have := s.sectorCount.toNat_lt
  omega

/-- **`read_sectors`** fills the target from the medium, whatever time the drive takes. -/
theorem readSectors_spec (d : Drive) (hd : d.bytes = b) (hn : d.sectorCount = s.sectorCount.toNat)
    (hsc : s.sectorCount = identity 60) (hwrap : at₀.toNat + sectorsOf size < 2 ^ 32) :
    Triple F (s.Resting fuel identity b) (readSectors fuel at₀ target size) fun t' t₁ =>
      t' = EitanOS.readSectors d at₀.toNat target size ∧ s.Resting fuel identity b t₁ := by
  refine Triple.get fun s₀ => ?_
  rintro t₁ ⟨rfl, a, ⟨p, hp, ha⟩, rfl⟩
  rw [← Pio.readSectors_eq]
  unfold Pio.readSectors
  dsimp only
  have hcheck : (s.withDrive a).sectorCount = s.sectorCount := rfl
  rw [hcheck, hn]
  refine Triple.ite (P := s.Resting fuel identity b) (fun hr => ?_) (fun hr => ?_) _ ⟨a, ⟨p, hp, ha⟩, rfl⟩
  · rw [if_pos hr]
    exact Triple.ret fun t₁ ht => ⟨rfl, ht⟩
  · rw [if_neg hr]
    have h₁ : 1 ≤ sectorsOf size := by omega
    have hlt : (at₀.toNat + sectorsOf size) % 2 ^ 32 < s.sectorCount.toNat := by omega
    refine waitBusy_rests.bind fun _ => Triple.bind (sendCommand_spec
      (q := .readAt (at₀.toNat % 2 ^ 28) (sectorsOf size) 0) fun a hk hi => ?_) fun _ => ?_
    · rw [(Ata.addressed_command hk h₁ (sectorsOf_lt size)).1, if_pos (fits hsc hi hwrap hlt)]
      rfl
    · refine ((Triple.foldlM_range (n := sectorsOf size) (b := target) (I := fun j t' t₁ =>
        t' = (List.range j).foldl (fun t j =>
          (List.range 256).foldl (Pio.readWord d (at₀.toNat % 2 ^ 28) size j) t) target ∧
        s.On (Ata.Tracks fuel .disk identity b (if 0 < sectorsOf size - j then
          .readAt (at₀.toNat % 2 ^ 28 + j) (sectorsOf size - j) 0 else .idle)) t₁) ?_).pre ?_).post ?_
      · intro j hj t'
        refine Triple.assume fun ht => ?_
        rw [if_pos (by omega)]
        refine (readSector_spec d hd).post ?_
        rintro t'' t₁ ⟨rfl, h⟩
        rw [Phase.readAt_end (n := sectorsOf size - (j + 1)) (by omega), Nat.add_assoc] at h
        rw [List.range_succ (n := j), List.foldl_append, ← ht, List.foldl_cons, List.foldl_nil]
        exact ⟨rfl, h⟩
      · intro t₁ h
        rw [if_pos (by omega)]
        exact ⟨rfl, h⟩
      · rintro t' t₁ ⟨ht, a, ha, rfl⟩
        rw [if_neg (by omega)] at ha
        exact ⟨ht, a, ⟨.idle, rfl, ha⟩, rfl⟩

/-- **`write_sectors`** changes the medium, whatever time the drive takes. -/
theorem writeSectors_spec (d : Drive) (hn : d.sectorCount = s.sectorCount.toNat)
    (hw : s.writableDrive = true) (hsc : s.sectorCount = identity 60)
    (hwrap : at₀.toNat + sectorsOf size < 2 ^ 32) :
    Triple F (s.Resting fuel identity d.bytes) (writeSectors fuel at₀ src size) fun _ =>
      s.Resting fuel identity (EitanOS.writeSectors d at₀.toNat src size).bytes := by
  refine Triple.get fun s₀ => ?_
  rintro t₁ ⟨rfl, a, ⟨p, hp, ha⟩, rfl⟩
  rw [← Pio.writeSectors_eq]
  unfold Pio.writeSectors
  dsimp only
  have hcheck : (s.withDrive a).sectorCount = s.sectorCount := rfl
  have hwritable : (s.withDrive a).writableDrive = true := hw
  rw [hcheck, hn, hwritable]
  refine Triple.ite (P := s.Resting fuel identity d.bytes) (fun hr => ?_) (fun hr => ?_) _
    ⟨a, ⟨p, hp, ha⟩, rfl⟩
  · rw [if_pos hr]
    exact Triple.ret fun t₁ ht => ht
  · rw [if_neg hr]
    simp only [Bool.true_eq_false, false_or] at hr
    have h₁ : 1 ≤ sectorsOf size := by omega
    have hlt : (at₀.toNat + sectorsOf size) % 2 ^ 32 < s.sectorCount.toNat := by omega
    refine waitBusy_rests.bind fun _ => Triple.bind (sendCommand_spec
      (q := .writeAt (at₀.toNat % 2 ^ 28) (sectorsOf size) 0) fun a hk hi => ?_) fun _ => ?_
    · rw [(Ata.addressed_command hk h₁ (sectorsOf_lt size)).2, if_pos (fits hsc hi hwrap hlt)]
      rfl
    · refine ((Triple.forM_range (n := sectorsOf size) (I := fun j => s.On (Ata.Tracks fuel .disk identity
        ((List.range j).foldl (fun d j =>
          (List.range 256).foldl (Pio.writeWord (at₀.toNat % 2 ^ 28) src size j) d) d).bytes
        (if 0 < sectorsOf size - j then
          .writeAt (at₀.toNat % 2 ^ 28 + j) (sectorsOf size - j) 0 else .idle))) ?_).pre ?_).post ?_
      · intro j hj
        rw [if_pos (by omega)]
        refine (writeSector_spec _).post ?_
        rintro _ t₁ h
        rw [Phase.writeAt_end (n := sectorsOf size - (j + 1)) (by omega), Nat.add_assoc] at h
        rw [List.range_succ (n := j), List.foldl_append, List.foldl_cons, List.foldl_nil]
        exact h
      · intro t₁ h
        rw [if_pos (by omega)]
        exact h
      · rintro _ t₁ ⟨a, ha, rfl⟩
        rw [if_neg (by omega)] at ha
        exact ⟨a, ⟨.idle, rfl, ha⟩, rfl⟩

end Driver

end EitanOS
