import TrustedGrub.Lib.Memory
import TrustedGrub.Partition.Tables

/-!
# `bios.c`

`biosdisk` and `get_diskinfo` over the INT 13 services. `Firmware` is the BIOS: which
drives it has, how it addresses their sectors, and what it answers to each call. Any
call may fail. The contents of the drives are part of the state, because `biosdisk`
writes to them.
-/

namespace TrustedGrub.Drive
open Fips180 (Byte)
open Disk (GrubError sectorSize)
open Memory (slice store)

/-- `struct geometry`, with the two flags of `flags`. -/
structure Geometry where
  cylinders : Nat
  heads : Nat
  sectors : Nat
  totalSectors : Nat
  sectorSize : Nat
  /-- `BIOSDISK_FLAG_LBA_EXTENSION`. -/
  lbaExtension : Bool
  /-- `BIOSDISK_FLAG_CDROM`. -/
  cdrom : Bool
  deriving DecidableEq

def Geometry.zero : Geometry := ⟨0, 0, 0, 0, 0, false, false⟩

/-- `cylinders * heads * sectors`. -/
def Geometry.chsSectors (g : Geometry) : Nat := g.cylinders * g.heads * g.sectors

/-! ## The firmware -/

inductive Operation where
  | read | write
  deriving DecidableEq

/-- How INT 13 is told a sector. -/
inductive Address where
  /-- A disk address packet. -/
  | packet (block : Nat)
  /-- AH=02h and AH=03h. Sectors are counted from one. -/
  | chs (cylinder head sector : Nat)

/-- What INT 13 AX=4B01h stores. -/
structure SpecPacket where
  mediaType : Byte
  driveNo : Byte
  cylinders : Byte
  sectors : Byte
  heads : Byte

/-- What INT 13 AH=48h stores, as far as it is used. -/
structure DriveParameters where
  cylinders : Nat
  heads : Nat
  sectors : Nat
  totalSectors : Nat

/-- The registers after INT 13 AH=08h. -/
structure Registers where
  ah : Byte
  ch : Byte
  cl : Byte
  dh : Byte

/-- The BIOS. A drive is the number in DL. `ω` is whatever its answers depend on. -/
structure Firmware (ω : Type) where
  /-- The bytes of a sector of the drive. -/
  sectorBytes : Nat → Nat
  /-- The heads by which the drive takes an address apart. -/
  heads : Nat → Nat
  /-- The sectors per track by which it does. -/
  sectors : Nat → Nat
  /-- A transfer of some sectors: the status, zero when it is done. -/
  transfer : ω → Operation → Nat → Address → Nat → Byte × ω
  /-- What a read that fails leaves in memory. -/
  leftover : ω → Nat → Byte
  /-- The version of the extensions, zero when there are none. -/
  checkInt13Extensions : ω → Nat → Nat × ω
  specPacket : ω → Nat → Option SpecPacket × ω
  driveParameters : ω → Nat → Option DriveParameters × ω
  registers : ω → Nat → Registers × ω

variable {ω : Type} (fw : Firmware ω)

/-- The sector that an address means. -/
def Firmware.place (unit : Nat) : Address → Nat
  | .packet block => block
  | .chs cylinder head sector => (cylinder * fw.heads unit + head) * fw.sectors unit + (sector - 1)

/-- The track buffer with its key, the memory, and the drives behind the BIOS. -/
structure State (ω : Type) where
  bufDrive : Int
  bufTrack : Int
  bufGeom : Geometry
  mem : Nat → Byte
  errnum : GrubError
  /-- `mbi.mem_lower` and `mbi.mem_upper`. -/
  memLower : Nat
  memUpper : Nat
  /-- The contents of the drives. -/
  disk : Nat → Nat → Byte
  world : ω

/-- An `int` taken as `unsigned long`. -/
def unsigned (n : Int) : Nat := (n % 2 ^ 32).toNat

/-- The low byte of `drive`, for DL. -/
def unit (drive : Int) : Nat := (drive % 2 ^ 8).toNat

/-! ## `biosdisk` -/

/-- `BIOSDISK_ERROR_GEOMETRY`. -/
def biosdiskErrorGeometry : Nat := 0x100

/-- The sectors have gone from the drive to memory, or from memory to the drive. -/
def State.transferred (st : State ω) (op : Operation) (unit place nsec segment : Nat) : State ω :=
  let start := place * fw.sectorBytes unit
  let len := nsec * fw.sectorBytes unit
  match op with
  | .read => { st with mem := store st.mem segment (slice (st.disk unit) start len) }
  | .write => { st with disk := Function.update st.disk unit (store (st.disk unit) start (slice st.mem segment len)) }

/-- A transfer that failed: nothing is written to a drive. -/
def State.spoiled (st : State ω) (op : Operation) (unit nsec segment : Nat) : State ω :=
  match op with
  | .read => { st with mem := store st.mem segment (slice (fw.leftover st.world) 0 (nsec * fw.sectorBytes unit)) }
  | .write => st

/-- `biosdisk_int13_extensions` and `biosdisk_standard`, for a transfer. The attempts of
the latter are left to the firmware. -/
def int13 (op : Operation) (drive : Int) (address : Address) (nsec segment : Nat) (st : State ω) : Nat × State ω :=
  let (status, world) := fw.transfer st.world op (unit drive) address nsec
  let st := { st with world }
  if status = 0 then (0, st.transferred fw op (unit drive) (fw.place (unit drive) address) nsec segment)
  else (status.toNat, st.spoiled fw op (unit drive) nsec segment)

/-- `biosdisk` without the LBA flag; `none` is a division by zero. -/
def biosdiskStandard (op : Operation) (drive sector : Int) (nsec segment : Nat) (st : State ω) : Option (Nat × State ω) :=
  let g := st.bufGeom
  if g.sectors = 0 ∨ g.heads = 0 then none
  else
    let sectorOffset := unsigned sector % g.sectors + 1
    let head := unsigned sector / g.sectors
    let headOffset := head % g.heads
    let cylinderOffset := head / g.heads
    if g.cylinders ≤ cylinderOffset then some (biosdiskErrorGeometry, st)
    else some (int13 fw op drive (.chs cylinderOffset headOffset sectorOffset) nsec segment st)

/-- The fallback from LBA to CHS clears the flag. -/
def Geometry.withoutLba (g : Geometry) : Geometry := { g with lbaExtension := false, totalSectors := g.chsSectors }

/-- `biosdisk (op, drive, &buf_geom, sector, nsec, segment)`. -/
def biosdisk (op : Operation) (drive sector : Int) (nsec segment : Nat) (st : State ω) : Option (Nat × State ω) :=
  if st.bufGeom.lbaExtension then
    let (err, st) := int13 fw op drive (.packet (sector % 2 ^ 64).toNat) nsec segment st
    if err = 0 ∨ st.bufGeom.cdrom then some (err, st)
    else biosdiskStandard fw op drive sector nsec segment { st with bufGeom := st.bufGeom.withoutLba }
  else biosdiskStandard fw op drive sector nsec segment st

/-! ## `get_diskinfo` -/

/-- `get_cdinfo`: nothing when the drive is no CD-ROM that the BIOS has booted. -/
def getCdinfo (drive : Int) (g : Geometry) (world : ω) : Option Geometry × ω :=
  match fw.specPacket world (unit drive) with
  | (none, world) => (none, world)
  | (some cdrp, world) =>
    if (cdrp.driveNo.toNat : Int) ≠ drive then (none, world)
    else if cdrp.mediaType.toNat % 0x10 = 0 then
      -- No emulation bootable CD-ROM
      (some ⟨0, 1, 15, 0x7FFFFFFF, 2048, true, true⟩, world)
    else
      -- Floppy or hard-disk emulation
      let g := { g with
        cylinders := cdrp.cylinders.toNat + 0x100 * (cdrp.sectors.toNat / 0x40)
        heads := cdrp.heads.toNat
        sectors := cdrp.sectors.toNat % 0x40
        sectorSize := sectorSize }
      (some { g with totalSectors := g.chsSectors }, world)

/-- The registers say that there is a disk. -/
def Registers.good (r : Registers) : Prop := r.ah = 0 ∧ r.cl.toNat % 0x40 ≠ 0

instance (r : Registers) : Decidable r.good := inferInstanceAs (Decidable (_ ∧ _))

/-- `get_diskinfo_standard`. It stores what it finds in the registers even when it
returns an error. -/
def getDiskinfoStandard (drive : Int) (g : Geometry) (world : ω) : Bool × Geometry × ω :=
  let (r, world) := fw.registers world (unit drive)
  (r.good,
    { g with
      cylinders := r.ch.toNat + 0x100 * (r.cl.toNat / 0x40) + 1
      heads := r.dh.toNat + 1
      sectors := r.cl.toNat % 0x40 },
    world)

/-- The end of `get_diskinfo`, where `totalSectors` is zero if it is not known. -/
def getDiskinfoTotal (drive : Int) (totalSectors : Nat) (g : Geometry) (world : ω) : Bool × Geometry × ω :=
  let (done, g, world) := getDiskinfoStandard fw drive g world
  if done then
    (true, { g with totalSectors := if totalSectors = 0 then g.chsSectors else totalSectors, sectorSize := sectorSize }, world)
  else (false, g, world)

/-- `total_sectors` as the LBA call gives it. -/
def DriveParameters.total (drp : DriveParameters) : Nat :=
  if drp.totalSectors ≠ 0 then drp.totalSectors % 2 ^ 32 else drp.cylinders * drp.heads * drp.sectors % 2 ^ 32

/-- The part of `get_diskinfo` for hard disks that are not a CD-ROM. -/
def getDiskinfoHard (drive : Int) (version : Nat) (g : Geometry) (world : ω) : Bool × Geometry × ω :=
  if version ≠ 0 then
    match fw.driveParameters world (unit drive) with
    | (some drp, world) => getDiskinfoTotal fw drive drp.total { g with lbaExtension := true, cdrom := false } world
    | (none, world) => getDiskinfoTotal fw drive 0 g world
  else getDiskinfoTotal fw drive 0 g world

/-- `get_diskinfo (drive, &g)`: whether it returns 0. -/
def getDiskinfo (drive : Int) (g : Geometry) (world : ω) : Bool × Geometry × ω :=
  let g := { g with lbaExtension := false, cdrom := false }
  if 0x80 ≤ unit drive then
    -- hard disk or CD-ROM
    let (version, world) := fw.checkInt13Extensions world (unit drive)
    if 0x88 ≤ drive ∨ version ≠ 0 then
      match getCdinfo fw drive g world with
      | (some g, world) => (true, g, world)
      | (none, world) => getDiskinfoHard fw drive version g world
    else getDiskinfoHard fw drive version g world
  else
    -- floppy disk
    getDiskinfoTotal fw drive 0 g world

end TrustedGrub.Drive
