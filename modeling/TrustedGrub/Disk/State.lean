import TrustedGrub.Disk.BlockName

/-!
# The globals of file access

`stage2/disk_io.c` and `gunzip.c` keep the one open file in global variables.
`State` is the record of those; `Platform` is what lies beyond them: the mounted
file system's driver, the disk, the keyboard, the TPM, and the decoder of `inflate`.
Every device access may fail, in a way that the platform chooses freely.
-/

namespace TrustedGrub.Disk
open Fips180 (Byte Word Words)
open Sha1 (Sha1Context)

def maxint : Int := 0x7FFFFFFF
def linuxBzimageAddr : Nat := 0x100000
/-- `PCR_KERNEL`. -/
def pcrKernel : Nat := 14

/-- The content of a file. `filemax` is an `int`. -/
structure File where
  bytes : List Byte
  fits : bytes.length ≤ 0x7FFFFFFF

/-- What the user and the TPM see of a close. -/
inductive Event where
  /-- `update_pcr (pcr, hash_result)`. -/
  | updatePcr (pcr : Nat) (hashResult : Words)
  /-- "WARNING: Whole file could not be measured!" -/
  | notMeasured (hasToMeasure byteCount : Word)
  deriving DecidableEq

/-- Where a read stores: the bytes found there, and what `memcheck` answers for a
stretch of them, given by its offset and length. -/
structure Dest where
  bytes : Nat → Byte
  usable : Nat → Nat → Bool

/-- A local array. The stack lies in usable memory. -/
def Dest.local (bytes : Nat → Byte) : Dest := ⟨bytes, fun _ _ => true⟩

/-- What the decompressor keeps: the other half of the `gunzip_swap_values` pairs, the
input buffer, and the state `ι` of `inflate` itself. -/
structure Gzip (ι : Type) where
  dataOffset : Int
  filepos : Int
  filemax : Int
  fsmax : Int
  savedFilepos : Int
  inbuf : Nat → Byte
  bufloc : Nat
  inflate : ι

/-- The block list in the file system buffer, and the cursor `BLK_CUR_*` into it. -/
structure Blocks where
  list : List (Nat × Nat)
  curFilepos : Nat
  curBlklist : Nat
  curBlknum : Nat

structure State (σ ι : Type) where
  errnum : GrubError
  performSha1 : Bool
  oldPerformSha1Value : Bool
  measureKernel : Bool
  noDecompression : Bool
  compressedFile : Bool
  blockFile : Bool
  /-- `fsys_type != NUM_FSYS`. -/
  mounted : Bool
  filepos : Int
  filemax : Int
  fsmax : Int
  mySha1 : Sha1Context
  sha1ByteCount : Word
  sha1HasToMeasure : Word
  kernelFilesize : Int
  kernelCompressedFilesize : Int
  kernelRealAddr : Nat
  gzip : Gzip ι
  blocks : Blocks
  /-- The bytes of the open partition. -/
  part : Nat → Byte
  /-- The bytes of the file the driver was opened on. -/
  file : File
  mem : Nat → Byte
  memLower : Nat
  memUpper : Nat
  driver : σ
  /-- A device access has gone wrong, or a read went beyond what the driver can reach. No
  code reads this: it is the history. -/
  faulted : Bool
  /-- The lengths of the links that the driver has read on its way to the file. No code
  reads this either. -/
  links : List Nat
  events : List Event

/-- A request to a driver's `read_func`, or to `devread`. -/
structure Request where
  pos : Int
  len : Nat
  usable : Bool
  errnum : GrubError

/-- A device access that goes wrong: what is returned, the bytes stored before that,
and the `filepos` and `errnum` left behind. -/
structure Fault where
  result : Int
  stored : List Byte
  filepos : Int
  errnum : GrubError

/-- What `setup_part` finds for a file name. -/
inductive Setup (σ : Type) where
  /-- It returns 0. -/
  | refused (errnum : GrubError) (driver : σ)
  /-- It returns the rest of the name, behind the device. -/
  | chosen (filename : DiskName) (part : Nat → Byte) (mounted : Bool) (errnum : GrubError) (driver : σ)

/-- The walk of a driver's `dir_func` along a path. A driver may read a symbolic link
through `grub_read`, and goes on from the result. The partial file systems tell in
`fsmax` how far they can read. -/
inductive DirWalk (σ : Type) where
  | opened (file : File) (fsmax : Int) (driver : σ)
  | failed (errnum : GrubError) (filepos filemax : Int) (driver : σ)
  | readLink (link : File) (linkbuf : Nat → Byte) (driver : σ) (next : Int → (Nat → Byte) → σ → DirWalk σ)

/-- One `inflate_window`: it takes bytes, seeing `errnum` after each, until the window
is full or the stream ends (`window`), or returns early because `errnum` is set
(`abandoned`). `bad` tells that it found bad data itself. -/
inductive Inflating (ι : Type) where
  | getByte (next : Byte → GrubError → Inflating ι)
  | window (state : ι) (bad : Bool)
  | abandoned (state : ι)

structure Platform (σ ι : Type) where
  setupPart : List Byte → σ → Setup σ
  dirFunc : List Byte → σ → DirWalk σ
  /-- `none` delivers the bytes of the file. -/
  readFunc : σ → Request → Option Fault × σ
  /-- `none` delivers the bytes of the partition. -/
  devread : σ → Request → Option Fault × σ
  /-- Whether the key read after a warning is the escape key. -/
  escape : σ → Bool × σ
  tpm : Bool
  inflateWindow : ι → Inflating ι
  /-- The part of `initialize_tables` that concerns `inflate`. -/
  resetInflate : ι → ι
  slide : ι → Nat → Byte
  /-- What the local arrays hold before anything is stored there: that of `grub_open` for the name, as a string, and the buffer of
  `calculate_sha1`. -/
  fn : σ → List Byte
  tcgbuffer : σ → Nat → Byte

/-- No device access ever goes wrong. -/
structure Platform.Healthy {σ ι : Type} (p : Platform σ ι) : Prop where
  readFunc : ∀ d rq, (p.readFunc d rq).1 = none
  devread : ∀ d rq, (p.devread d rq).1 = none

/-- The globals before the first command. -/
def State.atBoot {σ ι : Type} (driver : σ) (inflate : ι) (memLower memUpper : Nat) : State σ ι where
  errnum := .none
  performSha1 := false
  oldPerformSha1Value := false
  measureKernel := false
  noDecompression := false
  compressedFile := false
  blockFile := false
  mounted := false
  filepos := 0
  filemax := 0
  fsmax := 0
  mySha1 := .zeroed
  sha1ByteCount := 0
  sha1HasToMeasure := 0
  kernelFilesize := 0
  kernelCompressedFilesize := 0
  kernelRealAddr := 0
  gzip := ⟨0, 0, 0, 0, 0, fun _ => 0, 0, inflate⟩
  blocks := ⟨[], 0, 0, 0⟩
  part := fun _ => 0
  file := ⟨[], by decide⟩
  mem := fun _ => 0
  memLower := memLower
  memUpper := memUpper
  driver := driver
  faulted := false
  links := []
  events := []

/-- What a working device answers: it refuses what is pending with an error, or into
unusable memory. -/
def Request.served (rq : Request) : Option Fault :=
  if rq.usable ∧ rq.errnum = .none then none
  else some ⟨0, [], rq.pos, if rq.errnum = .none then .wontFit else rq.errnum⟩

/-- A machine with one disk, mounted, whose files are given by their paths, and with a
TPM. Names with a device in front are of other disks. No data can be unpacked. -/
def Platform.ofFiles (files : List Byte → Option File) : Platform Unit Unit where
  setupPart name _ :=
    if h : name.head? ≠ some 0x28 ∧ (blockName name).filemax ≤ 0x7FFFFFFF then
      .chosen ⟨name, h.2⟩ (fun _ => 0) true .none ()
    else .refused .noDisk ()
  dirFunc path _ :=
    match files path with
    | some file => .opened file maxint ()
    | none => .failed .fileNotFound 0 0 ()
  readFunc _ rq := (rq.served, ())
  devread _ rq := (rq.served, ())
  escape _ := (false, ())
  tpm := true
  inflateWindow _ := .window () true
  resetInflate _ := ()
  slide _ _ := 0
  fn _ := []
  tcgbuffer _ _ := 0

theorem abc_fits : ([0x61, 0x62, 0x63] : List Byte).length ≤ 0x7FFFFFFF := by decide

/-- A disk with the one file `/f`. -/
def diskWithF : Platform Unit Unit :=
  .ofFiles fun path => if path = [0x2F, 0x66] then some ⟨[0x61, 0x62, 0x63], abc_fits⟩ else none

end TrustedGrub.Disk
