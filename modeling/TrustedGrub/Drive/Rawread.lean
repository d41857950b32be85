import TrustedGrub.Drive.Bios

/-!
# `rawread`, `rawwrite` and `devread`

The track buffer of `disk_io.c`. `rawread` serves a request track by track from the
buffer at `BUFFERADDR`, which it fills through `biosdisk`; the buffer is keyed by
`buf_drive` and `buf_track`. What a read delivers is stored at the caller's address,
and is told as a list of bytes.
-/

namespace TrustedGrub.Drive
open Fips180 (Byte)
open Disk (GrubError sectorSize)
open Memory (slice store)
open TrustedGrub.Partition (Buffer pcSliceType)

def bufferAddr : Nat := 0x70000
def bufferLen : Nat := 0x7E00
def scratchAddr : Nat := 0x77E00

def pcSliceTypeEzd : Nat := 0x55

/-- The sector is the map of an EZ-Drive disk. -/
def isEzd (buf : Buffer) : Bool :=
  pcSliceType buf 0 = pcSliceTypeEzd || pcSliceType buf 1 = pcSliceTypeEzd ||
    pcSliceType buf 2 = pcSliceTypeEzd || pcSliceType buf 3 = pcSliceTypeEzd

/-- What a pointer into the memory reads. -/
def State.at (st : State ω) (addr : Nat) : Buffer := fun i => st.mem (addr + i)

/-- `bsfl`: the lowest bit that is set. -/
def log2 (word : Nat) : Nat := ((List.range 32).find? word.testBit).getD 0

/-- `disk_read_func`: it may set `errnum` to an error. -/
abbrev Hook (ω : Type) := ω → Int → Int → Int → GrubError × ω

/-- The arguments of `rawread`, and where its loop stands. -/
structure Request where
  sector : Int
  byteOffset : Int
  byteLen : Int
  buf : Int

variable {ω : Type} (fw : Firmware ω)

/-! ## The pieces of a pass -/

def State.failed (st : State ω) (e : GrubError) : State ω := { st with errnum := e }

/-- `buf_track = -1`. -/
def State.invalidated (st : State ω) : State ω := { st with bufTrack := -1 }

/-- `buf_track = track`. -/
def State.keyed (st : State ω) (track : Int) : State ω := { st with bufTrack := track }

/-- The memory may be used. The address is taken for an `int`. -/
def State.Usable (st : State ω) (addr len : Int) : Prop :=
  let addr := Int.bmod addr (2 ^ 32)
  ¬ (addr < 0x1000 ∨ (addr < 0x100000 ∧ st.memLower * 1024 % 2 ^ 32 < unsigned (addr + len)) ∨
    (0x100000 ≤ addr ∧ st.memUpper * 1024 % 2 ^ 32 < unsigned (addr - 0x100000 + len)))

instance (st : State ω) (addr len : Int) : Decidable (st.Usable addr len) := inferInstanceAs (Decidable (¬ _))

/-- `memcheck (addr, len)`. It returns whether `errnum` is clear. -/
def State.memcheck (st : State ω) (addr len : Int) : State ω := if st.Usable addr len then st else st.failed .wontFit

/-- `grub_memmove` within the memory. -/
def State.memmove (st : State ω) (addr : Nat) (bytes : List Byte) : State ω :=
  let st := st.memcheck addr bytes.length
  if st.errnum = .none then { st with mem := store st.mem addr bytes } else st

/-- The drive of the buffer is another one: its geometry is asked for. -/
def State.selectDrive (drive : Int) (st : State ω) : Bool × State ω :=
  if st.bufDrive = drive then (true, st)
  else
    let (done, bufGeom, world) := getDiskinfo fw drive st.bufGeom st.world
    let st := { st with bufGeom, world }
    if done then (true, { st with bufDrive := drive, bufTrack := -1 }) else (false, st.failed .noDisk)

/-- `SECTOR` is not valid. -/
def Geometry.outside (g : Geometry) (sector : Int) : Prop := sector < 0 ∨ g.totalSectors ≤ unsigned sector

instance (g : Geometry) (sector : Int) : Decidable (g.outside sector) := inferInstanceAs (Decidable (_ ∨ _))

/-- `sectors_per_vtrack`: no more than the buffer holds. -/
def Geometry.sectorsPerVtrack (g : Geometry) : Nat :=
  if bufferLen < g.sectors <<< log2 g.sectorSize then bufferLen >>> log2 g.sectorSize else g.sectors

/-- `slen`: the sectors that the request reaches over. -/
def Geometry.slen (g : Geometry) (rq : Request) : Nat :=
  unsigned (rq.byteOffset + rq.byteLen + g.sectorSize - 1) >>> log2 g.sectorSize

/-- The read of the track into the buffer, or of the end of it for a request that goes on
behind it: the address of the first byte wanted. -/
def State.readTrack (drive : Int) (rq : Request) (slen vtrack : Nat) (st : State ω) : Option (Int × State ω) :=
  let soff := (rq.sector % vtrack).toNat
  let track := rq.sector - soff
  let numSect := vtrack - soff
  let atStart := bufferAddr + rq.byteOffset
  let bufaddr := if numSect < slen then atStart else bufferAddr + (soff <<< log2 st.bufGeom.sectorSize : Nat) + rq.byteOffset
  let result :=
    if numSect < slen then biosdisk fw .read drive rq.sector numSect bufferAddr st
    else biosdisk fw .read drive track vtrack bufferAddr st
  match result with
  | none => none
  | some (err, st) =>
    if err = 0 then some (bufaddr, st.keyed track)
    else if err = biosdiskErrorGeometry then some (bufaddr, st.invalidated.failed .geom)
    else if numSect < slen then some (atStart, st.invalidated.failed .read)
    else
      -- try to load only the required sectors
      match biosdisk fw .read drive rq.sector slen bufferAddr st.invalidated with
      | none => none
      | some (err, st) => some (atStart, if err = 0 then st else st.failed .read)

/-- An EZD disk maps sector 0 to sector 1. -/
def State.mapSectorZero (drive : Int) (rq : Request) (slen : Nat) (st : State ω) : Option (State ω) :=
  if (st.bufTrack = 0 ∨ rq.sector = 0) ∧ isEzd (st.at bufferAddr) then
    if st.bufTrack = 0 ∨ 2 ≤ slen then
      some (st.memmove bufferAddr (slice st.mem (bufferAddr + st.bufGeom.sectorSize) st.bufGeom.sectorSize))
    else
      match biosdisk fw .read drive 1 1 bufferAddr st with
      | none => none
      | some (err, st) => some (if err = 0 then st else st.failed .read)
  else some st

/-- The buffer holds what is wanted, or is filled. -/
def State.fill (drive : Int) (rq : Request) (slen vtrack : Nat) (st : State ω) : Option (Int × State ω) :=
  let soff := (rq.sector % vtrack).toNat
  if rq.sector - soff = st.bufTrack then
    some (bufferAddr + (soff <<< log2 st.bufGeom.sectorSize : Nat) + rq.byteOffset, st)
  else
    match st.readTrack fw drive rq slen vtrack with
    | none => none
    | some (bufaddr, st) =>
      match st.mapSectorZero fw drive rq slen with
      | none => none
      | some st => some (bufaddr, st)

/-- The calls of `disk_read_func` behind the first sector. -/
def laterSectors (bytes : Nat) (sectorNum : Int) (length : Nat) : List (Int × Int × Int) :=
  if 0 < bytes ∧ bytes < length then (sectorNum, 0, (bytes : Int)) :: laterSectors bytes (sectorNum + 1) (length - bytes)
  else [(sectorNum, 0, (length : Int))]
termination_by length

/-- The calls of `disk_read_func` for `size` bytes. -/
def sectorsUsed (bytes : Nat) (rq : Request) (size : Int) : List (Int × Int × Int) :=
  let length := min (bytes - rq.byteOffset) size
  (rq.sector, rq.byteOffset, length) ::
    if 0 < size - length then laterSectors bytes (rq.sector + 1) (size - length).toNat else []

/-- One call of `disk_read_func`. -/
def State.toldOne (hook : Hook ω) (st : State ω) (used : Int × Int × Int) : State ω :=
  let (e, world) := hook st.world used.1 used.2.1 used.2.2
  { st with world, errnum := if e = .none then st.errnum else e }

/-- Instrumentation to tell which sectors were read and used. -/
def State.told (hook : Option (Hook ω)) (used : List (Int × Int × Int)) (st : State ω) : State ω :=
  match hook with
  | none => st
  | some hook => used.foldl (State.toldOne hook) st

/-- `grub_memmove (buf, bufaddr, size)`: the bytes that reach the caller. -/
def State.delivered (buf bufaddr : Int) (size : Nat) (st : State ω) : List Byte × State ω :=
  let st := st.memcheck buf size
  let bytes := slice st.mem (unsigned bufaddr) size
  if st.errnum = .none then (bytes, { st with mem := store st.mem (unsigned buf) bytes }) else ([], st)

/-! ## `rawread` -/

/-- What one pass through the loop comes to. -/
inductive Pass (ω : Type) where
  /-- The machine stops at an instruction, or is lost in a copy of negative length. -/
  | fault
  /-- `return 0`. -/
  | refused (st : State ω)
  | next (rq : Request) (bytes : List Byte) (st : State ω)

/-- The body of the loop, once the drive is selected. -/
def State.pass (hook : Option (Hook ω)) (drive : Int) (rq : Request) (st : State ω) : Pass ω :=
  let g := st.bufGeom
  if g.outside rq.sector then .refused (st.failed .geom)
  else if g.sectorsPerVtrack = 0 then .fault
  else
    let vtrack := g.sectorsPerVtrack
    let numSect := vtrack - (rq.sector % vtrack).toNat
    match st.fill fw drive rq (g.slen rq) vtrack with
    | none => .fault
    | some (bufaddr, st) =>
      let size := min rq.byteLen ((numSect <<< log2 g.sectorSize : Nat) - rq.byteOffset)
      if size < 0 then .fault
      else
        let (bytes, st) := (st.told hook (sectorsUsed g.sectorSize rq size)).delivered rq.buf bufaddr size.toNat
        .next ⟨Int.bmod (rq.sector + numSect) (2 ^ 32), 0, rq.byteLen - size, rq.buf + size⟩ bytes st

/-- `while (byte_len > 0 && !errnum)`. A pass that takes nothing leaves no offset. -/
def rawreadLoop (hook : Option (Hook ω)) (drive : Int) : Nat → Request → List Byte → State ω → Option (Bool × List Byte × State ω)
  | 0, _, _, _ => none
  | fuel + 1, rq, out, st =>
    if 0 < rq.byteLen ∧ st.errnum = .none then
      let (selected, st) := st.selectDrive fw drive
      if selected then
        match st.pass fw hook drive rq with
        | .fault => none
        | .refused st => some (false, out, st)
        | .next rq bytes st => rawreadLoop hook drive fuel rq (out ++ bytes) st
      else some (false, out, st)
    else some (st.errnum = .none, out, st)

/-- `rawread`: what it returns, what it has delivered, and the globals. -/
def rawread (hook : Option (Hook ω)) (drive : Int) (rq : Request) (st : State ω) : Option (Bool × List Byte × State ω) :=
  if rq.byteLen ≤ 0 then some (true, [], st) else rawreadLoop fw hook drive (rq.byteLen.toNat + 2) rq [] st

/-- `devread`, for a partition that starts at `partStart`. -/
def devread (hook : Option (Hook ω)) (currentDrive : Int) (partStart partLength : Nat) (rq : Request) (st : State ω) :
    Option (Bool × List Byte × State ω) :=
  if rq.sector < 0 ∨ partLength ≤ unsigned (rq.sector + Int.bmod (rq.byteOffset + rq.byteLen - 1) (2 ^ 32) / sectorSize) then
    some (false, [], st.failed .outsidePart)
  else
    rawread fw hook currentDrive
      { rq with
        sector := Int.bmod (partStart + (rq.sector + rq.byteOffset / sectorSize)) (2 ^ 32)
        byteOffset := rq.byteOffset % sectorSize } st

/-! ## `rawwrite` -/

/-- The write of the sector that was chosen. -/
def State.writeSector (drive sector : Int) (buf : Buffer) (st : State ω) : Option (Bool × State ω) :=
  match biosdisk fw .write drive sector 1 scratchAddr (st.memmove scratchAddr (slice buf 0 sectorSize)) with
  | none => none
  | some (err, st) =>
    if err ≠ 0 then some (false, st.failed .write)
    else if st.bufGeom.sectors = 0 then none
    else if unsigned sector - unsigned sector % st.bufGeom.sectors = unsigned st.bufTrack then some (true, st.invalidated)
    else some (true, st)

/-- `rawwrite (drive, sector, buf)`. -/
def rawwrite (drive sector : Int) (buf : Buffer) (st : State ω) : Option (Bool × State ω) :=
  if sector = 0 then
    match biosdisk fw .read drive 0 1 scratchAddr st with
    | none => none
    | some (err, st) =>
      if err ≠ 0 then some (false, st.failed .write)
      else st.writeSector fw drive (if isEzd (st.at scratchAddr) then 1 else 0) buf
  else st.writeSector fw drive sector buf

end TrustedGrub.Drive
